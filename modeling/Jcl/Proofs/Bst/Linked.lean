/-
Module: Jcl.Proofs.Bst.Linked
Layer: Proofs
Purpose: Reading the memory of a search tree as a tree. `Linked` says that a tree of node addresses is
  what the child, parent and colour fields spell out; `CtxLinked` says the same of the frames around a
  node, so that a state can be described around the node a function works on (`holds_plug`).
Imports: Jcl.Proofs.Bst.Heap
Trusted boundary: none (fully proved)
Main exports: NodeAt, Linked, CtxLinked, Holds, holds_plug, Linked.congr, Linked.adopt,
  CtxLinked.congr, CtxLinked.setHole
-/
import Mathlib.Data.List.Perm.Subperm
import Jcl.Proofs.Bst.Heap

namespace Jcl

open RedBlack RedBlack.RBTree TaggedWord

/-- The colour bit of a node. -/
def Color.word : Color → UInt64
  | .red => bstRed
  | .black => bstBlack

theorem isTag_word (c : Color) : IsTag (Color.word c) := by cases c <;> rfl

@[simp] theorem Color.word_red_iff {c : Color} : Color.word c = bstRed ↔ c = .red := by
  cases c <;> decide

@[simp] theorem Color.word_black_iff {c : Color} : Color.word c = bstBlack ↔ c = .black := by
  cases c <;> decide

/-- The address stored for a subtree. -/
def ptr (nil : Addr) : RBTree Addr → Addr
  | leaf => nil
  | node _ _ x _ => x

@[simp] theorem ptr_leaf {nil : Addr} : ptr nil leaf = nil := rfl

@[simp] theorem ptr_node {nil x : Addr} {c : Color} {l r : RBTree Addr} : ptr nil (node c l x r) = x :=
  rfl

@[simp] theorem ptr_dnode {nil x : Addr} {d : Dir} {c : Color} {near far : RBTree Addr} :
    ptr nil (dnode d c near x far) = x := by cases d <;> rfl

/-- The address of the parent of the focus. -/
def ctxParent (nil : Addr) : List (Frame Addr) → Addr
  | [] => nil
  | f :: _ => f.key

@[simp] theorem ctxParent_nil {nil : Addr} : ctxParent nil [] = nil := rfl

@[simp] theorem ctxParent_cons {nil : Addr} {f : Frame Addr} {ctx : List (Frame Addr)} :
    ctxParent nil (f :: ctx) = f.key := rfl

section

variable {K V : Type} {t t' : Bst K V} {d : Dir} {c : Color} {near far p q x par : Addr}
  {s T : RBTree Addr} {ctx : List (Frame Addr)} {f : Frame Addr}

/-- `x` is a node with this colour, these children on side `d` and the other, and this parent. -/
structure NodeAt (t : Bst K V) (d : Dir) (c : Color) (near far x par : Addr) : Prop where
  ne_null : x ≠ null
  ne_nil : x ≠ t.nil
  aligned : Aligned x
  color : t.color x = Color.word c
  parent : t.parent x = par
  near : t.child d x = near
  far : t.child d.other x = far

/-- The fields of the nodes of a tree spell it out, below the parent `par`. -/
def Linked (t : Bst K V) : RBTree Addr → Addr → Prop
  | leaf, _ => True
  | node c l x r, par => NodeAt t .left c (ptr t.nil l) (ptr t.nil r) x par ∧ Linked t l x ∧ Linked t r x

/-- The fields of the nodes of the frames spell them out, around a focus at address `p`. -/
def CtxLinked (t : Bst K V) : List (Frame Addr) → Addr → Prop
  | [], p => t.root = p
  | f :: ctx, p => NodeAt t f.dir f.color p (ptr t.nil f.sib) f.key (ctxParent t.nil ctx) ∧
      Linked t f.sib f.key ∧ CtxLinked t ctx f.key

/-- The sentinel: black, its own child, and an address no node has. -/
structure NilOk (t : Bst K V) : Prop where
  ne_null : t.nil ≠ null
  aligned : Aligned t.nil
  color : t.color t.nil = bstBlack
  child : ∀ d, t.child d t.nil = t.nil

/-- The memory of `t` holds the tree `T`. -/
structure Holds (t : Bst K V) (T : RBTree Addr) : Prop where
  nilOk : NilOk t
  root : t.root = ptr t.nil T
  linked : Linked t T t.nil
  nodup : T.toList.Nodup

/-! ### Looking from a side, and from a node inside -/

theorem NodeAt.other (h : NodeAt t d c near far x par) : NodeAt t d.other c far near x par where
  ne_null := h.ne_null
  ne_nil := h.ne_nil
  aligned := h.aligned
  color := h.color
  parent := h.parent
  near := h.far
  far := by
    rw [Dir.other_other]
    exact h.near

@[simp] theorem linked_leaf : Linked t leaf par := trivial

@[simp] theorem linked_dnode {l r : RBTree Addr} :
    Linked t (dnode d c l x r) par ↔
      NodeAt t d c (ptr t.nil l) (ptr t.nil r) x par ∧ Linked t l x ∧ Linked t r x := by
  cases d with
  | left => exact Iff.rfl
  | right =>
      constructor
      · intro ⟨hx, hr, hl⟩
        exact ⟨hx.other, hl, hr⟩
      · intro ⟨hx, hl, hr⟩
        exact ⟨hx.other, hr, hl⟩

theorem linked_plug {par₀ : Addr} (hpar : par₀ = t.nil) :
    (t.root = ptr t.nil (plug ctx s) ∧ Linked t (plug ctx s) par₀) ↔
      CtxLinked t ctx (ptr t.nil s) ∧ Linked t s (ctxParent t.nil ctx) := by
  subst hpar
  induction ctx generalizing s with
  | nil => exact Iff.rfl
  | cons f ctx ih =>
      rw [plug_cons, ih]
      simp only [Frame.fill, ptr_dnode, linked_dnode, CtxLinked, ctxParent_cons]
      constructor
      · rintro ⟨hctx, hf, hs, hsib⟩
        exact ⟨⟨hf, hsib, hctx⟩, hs⟩
      · rintro ⟨⟨hf, hsib, hctx⟩, hs⟩
        exact ⟨hctx, hf, hs, hsib⟩

/-- The same state, described around a node inside the tree. -/
theorem holds_plug : Holds t (plug ctx s) ↔ NilOk t ∧ CtxLinked t ctx (ptr t.nil s) ∧
    Linked t s (ctxParent t.nil ctx) ∧ (plug ctx s).toList.Nodup := by
  constructor
  · intro h
    obtain ⟨hctx, hs⟩ := (linked_plug rfl).1 ⟨h.root, h.linked⟩
    exact ⟨h.nilOk, hctx, hs, h.nodup⟩
  · intro ⟨hnil, hctx, hs, hnodup⟩
    obtain ⟨hroot, hlinked⟩ := (linked_plug rfl).2 ⟨hctx, hs⟩
    exact ⟨hnil, hroot, hlinked, hnodup⟩

/-! ### Addresses of a tree -/

theorem Linked.of_mem (h : Linked t T par) (hx : x ∈ T.toList) :
    x ≠ null ∧ x ≠ t.nil ∧ Aligned x := by
  induction T generalizing par with
  | leaf => simp at hx
  | node c l y r ihl ihr =>
      obtain ⟨hy, hl, hr⟩ := h
      rcases List.mem_append.1 hx with hx | hx
      · exact ihl hl hx
      · rcases List.mem_cons.1 hx with rfl | hx
        · exact ⟨hy.ne_null, hy.ne_nil, hy.aligned⟩
        · exact ihr hr hx

theorem CtxLinked.of_mem (h : CtxLinked t ctx p) (hx : x ∈ labels ctx) :
    x ≠ null ∧ x ≠ t.nil ∧ Aligned x := by
  induction ctx generalizing p with
  | nil => simp at hx
  | cons f ctx ih =>
      obtain ⟨hf, hsib, hctx⟩ := h
      simp only [labels_cons, List.mem_cons, List.mem_append] at hx
      rcases hx with rfl | hx | hx
      · exact ⟨hf.ne_null, hf.ne_nil, hf.aligned⟩
      · exact hsib.of_mem hx
      · exact ih hctx hx

theorem Holds.of_mem (h : Holds t T) (hx : x ∈ T.toList) : x ≠ null ∧ x ≠ t.nil ∧ Aligned x :=
  h.linked.of_mem hx

theorem Holds.nil_not_mem (h : Holds t T) : t.nil ∉ T.toList := fun hmem => (h.of_mem hmem).2.1 rfl

theorem ptr_mem (h : ptr p s ≠ p) : ptr p s ∈ s.toList := by
  cases s with
  | leaf => exact absurd rfl h
  | node c l x r => simp

/-- The address of a tree seen from a node below its root is among the frames. -/
theorem ptr_plug_mem : ptr p (plug (f :: ctx) s) ∈ labels (f :: ctx) := by
  induction ctx generalizing f s with
  | nil => simp [Frame.fill]
  | cons g ctx ih =>
      have hin := ih (f := g) (s := f.fill s)
      rw [labels_cons]
      exact List.mem_cons_of_mem _ (List.mem_append_right _ hin)

theorem ptr_eq_nil_iff (h : Linked t s par) : ptr t.nil s = t.nil ↔ s = leaf := by
  cases s with
  | leaf => simp
  | node c l x r => simp [h.1.ne_nil]

theorem Linked.ptr_ne_null (hnil : NilOk t) (h : Linked t s par) : ptr t.nil s ≠ null := by
  cases s with
  | leaf => exact hnil.ne_null
  | node c l x r => exact h.1.ne_null

theorem CtxLinked.parent_ne_null (hnil : NilOk t) (h : CtxLinked t ctx p) :
    ctxParent t.nil ctx ≠ null := by
  cases ctx with
  | nil => exact hnil.ne_null
  | cons f ctx => exact h.1.ne_null

theorem CtxLinked.parent_aligned (hnil : NilOk t) (h : CtxLinked t ctx p) :
    Aligned (ctxParent t.nil ctx) := by
  cases ctx with
  | nil => exact hnil.aligned
  | cons f ctx => exact h.1.aligned

/-- The colour bit of the address stored for a subtree is the colour of the subtree. -/
theorem Linked.color_ptr (hnil : NilOk t) (h : Linked t s par) :
    t.color (ptr t.nil s) = Color.word s.color := by
  cases s with
  | leaf => exact hnil.color
  | node c l x r => exact h.1.color

/-- There are no more nodes than addresses. -/
theorem length_le_loopBound {l : List Addr} (h : l.Nodup) : l.length ≤ loopBound := by
  have hmap : (l.map UInt64.toNat).Nodup := h.map fun _ _ => UInt64.toNat_inj.1
  have hsub : l.map UInt64.toNat ⊆ List.range loopBound := by
    intro n hn
    obtain ⟨a, -, rfl⟩ := List.mem_map.1 hn
    exact List.mem_range.2 a.toNat_lt
  have hlen := (List.subperm_of_subset hmap hsub).length_le
  rwa [List.length_map, List.length_range] at hlen

theorem height_le_loopBound (h : T.toList.Nodup) : T.height ≤ loopBound :=
  (height_le_size T).trans ((length_toList T).symm.trans_le (length_le_loopBound h))

/-! ### Frame rules -/

theorem NodeAt.congr (h : NodeAt t d c near far x par) {l : List Addr} (hagree : Agree t t' l)
    (hx : x ∈ l) : NodeAt t' d c near far x par where
  ne_null := h.ne_null
  ne_nil := by
    rw [hagree.1]
    exact h.ne_nil
  aligned := h.aligned
  color := (hagree.color hx).trans h.color
  parent := (hagree.parent hx).trans h.parent
  near := (hagree.child hx).trans h.near
  far := (hagree.child hx).trans h.far

theorem Linked.congr (h : Linked t T par) (hagree : Agree t t' T.toList) : Linked t' T par := by
  induction T generalizing par with
  | leaf => trivial
  | node c l x r ihl ihr =>
      obtain ⟨hx, hl, hr⟩ := h
      refine ⟨?_, ihl hl (hagree.subset (by simp +contextual)),
        ihr hr (hagree.subset (by simp +contextual))⟩
      rw [hagree.1]
      exact hx.congr hagree (by simp)

theorem CtxLinked.congr (h : CtxLinked t ctx p) (hagree : Agree t t' (labels ctx))
    (hroot : t'.root = t.root) : CtxLinked t' ctx p := by
  induction ctx generalizing p with
  | nil => exact hroot.trans h
  | cons f ctx ih =>
      obtain ⟨hf, hsib, hctx⟩ := h
      refine ⟨?_, hsib.congr (hagree.subset (by simp +contextual)),
        ih hctx (hagree.subset (by simp +contextual))⟩
      rw [hagree.1]
      exact hf.congr hagree (by simp)

theorem NilOk.congr (h : NilOk t) (hagree : Agree t t' [t.nil]) : NilOk t' := by
  have hmem : t.nil ∈ [t.nil] := by simp
  constructor
  · rw [hagree.1]
    exact h.ne_null
  · rw [hagree.1]
    exact h.aligned
  · rw [hagree.1, hagree.color hmem]
    exact h.color
  · intro d
    rw [hagree.1, hagree.child hmem]
    exact h.child d

/-- The memory holds the same tree after changes elsewhere. -/
theorem Holds.congr (h : Holds t T) (hagree : Agree t t' (t.nil :: T.toList))
    (hroot : t'.root = t.root) : Holds t' T where
  nilOk := h.nilOk.congr (hagree.subset (by simp))
  root := by
    rw [hroot, hagree.1]
    exact h.root
  linked := by
    rw [hagree.1]
    exact h.linked.congr (hagree.subset (by simp +contextual))
  nodup := h.nodup

/-! ### Moving a subtree -/

/-- `if (p != nil) bst_set_parent(p, q)`. -/
def Bst.adopt (t : Bst K V) (p q : Addr) : Bst K V := if p = t.nil then t else t.setParent p q

/-- A subtree below a new parent. -/
theorem Linked.setParent (h : Linked t s par) (hx : ptr t.nil s ≠ t.nil) (hnodup : s.toList.Nodup)
    (hq : Aligned q) : Linked (t.setParent (ptr t.nil s) q) s q := by
  cases s with
  | leaf => trivial
  | node c l x r =>
      obtain ⟨hx, hl, hr⟩ := h
      have hnotin := nodup_dnode (d := .left).1 hnodup
      refine ⟨⟨hx.ne_null, hx.ne_nil, hx.aligned, ?_, ?_, ?_, ?_⟩,
        hl.congr (Agree.setParent hnotin.1), hr.congr (Agree.setParent hnotin.2.1)⟩
      · rw [ptr_node, Bst.setParent_color hq]
        exact hx.color
      · rw [ptr_node, Bst.setParent_parent hq, if_pos rfl]
      · exact hx.near
      · exact hx.far

theorem Linked.adopt (h : Linked t s par) (hnodup : s.toList.Nodup) (hq : Aligned q) :
    Linked (t.adopt (ptr t.nil s) q) s q := by
  unfold Bst.adopt
  split
  · case isTrue hnil =>
      rw [(ptr_eq_nil_iff h).1 hnil]
      trivial
  · case isFalse hnil => exact h.setParent hnil hnodup hq

/-- Storing an address where the focus hangs: in the root or in its parent's child field. -/
def Bst.setHole (t : Bst K V) (ctx : List (Frame Addr)) (p : Addr) : Bst K V :=
  match ctx with
  | [] => t.setRoot p
  | f :: _ => t.setChild f.dir f.key p

theorem CtxLinked.setHole (h : CtxLinked t ctx p) (hnodup : (labels ctx).Nodup) :
    CtxLinked (t.setHole ctx q) ctx q := by
  cases ctx with
  | nil => rfl
  | cons f ctx =>
      obtain ⟨hf, hsib, hctx⟩ := h
      rw [labels_cons, List.nodup_cons, List.mem_append, not_or] at hnodup
      refine ⟨⟨hf.ne_null, ?_, hf.aligned, ?_, ?_, ?_, ?_⟩, hsib.congr (Agree.setChild hnodup.1.1),
        hctx.congr (Agree.setChild hnodup.1.2) Bst.setChild_root⟩
      · exact fun hnil => hf.ne_nil (hnil.trans Bst.setChild_nil)
      · rw [Bst.setHole, Bst.setChild_color]
        exact hf.color
      · rw [Bst.setHole, Bst.setChild_parent, Bst.setChild_nil]
        exact hf.parent
      · exact Bst.setChild_child_same
      · rw [Bst.setHole, Bst.setChild_child_other_side, Bst.setChild_nil]
        exact hf.far

@[simp] theorem Bst.adopt_root : (t.adopt p q).root = t.root := by
  unfold Bst.adopt
  split <;> rfl

@[simp] theorem Bst.adopt_nil : (t.adopt p q).nil = t.nil := by
  unfold Bst.adopt
  split <;> rfl

@[simp] theorem Bst.adopt_child : (t.adopt p q).child d = t.child d := by
  unfold Bst.adopt
  split
  · rfl
  · exact Bst.setParent_child

theorem Bst.adopt_color (hq : Aligned q) : (t.adopt p q).color = t.color := by
  unfold Bst.adopt
  split
  · rfl
  · exact Bst.setParent_color hq

theorem Frames.adopt {l : List Addr} (hp : p ≠ t.nil → p ∈ l) : Frames t (t.adopt p q) l := by
  unfold Bst.adopt
  split
  · exact Frames.refl
  · case isFalse h => exact Frames.setParent (hp h)

@[simp] theorem Bst.setHole_nil : (t.setHole ctx p).nil = t.nil := by
  cases ctx with
  | nil => rfl
  | cons f ctx => exact Bst.setChild_nil

@[simp] theorem Bst.setHole_parent : (t.setHole ctx p).parent = t.parent := by
  cases ctx with
  | nil => rfl
  | cons f ctx => exact Bst.setChild_parent

@[simp] theorem Bst.setHole_color : (t.setHole ctx p).color = t.color := by
  cases ctx with
  | nil => rfl
  | cons f ctx => exact Bst.setChild_color

theorem Bst.setHole_child (hx : x ∉ labels ctx) : (t.setHole ctx p).child d x = t.child d x := by
  cases ctx with
  | nil => rfl
  | cons f ctx =>
      rw [labels_cons, List.mem_cons, not_or] at hx
      exact Bst.setChild_child_of_ne hx.1

theorem Frames.setHole : Frames t (t.setHole ctx p) (labels ctx) := by
  cases ctx with
  | nil => exact Frames.setRoot
  | cons f ctx => exact Frames.setChild (by simp)

end

end Jcl
