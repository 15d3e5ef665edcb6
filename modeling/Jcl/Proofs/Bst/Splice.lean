/-
Module: Jcl.Proofs.Bst.Splice
Layer: Proofs
Purpose: Hanging nodes into a search tree and taking them out, before the colours are repaired: a new leaf,
  a subtree in place of its parent, and the next largest node in place of a node with two children.
Imports: Jcl.Proofs.Bst.Rotate
Trusted boundary: none (fully proved)
Main exports: bstTransplant_spec, bstLocalExtremumLoop_spec, Bst.replaced, Holds.replaced, bstDeleteSplice_spec
-/
import Jcl.Proofs.Bst.Rotate

namespace Jcl

open RedBlack RedBlack.RBTree TaggedWord

section

variable {K V : Type} {t t' : Bst K V} {d : Dir} {c : Color} {p q x y par : Addr}
  {a b e l r s T : RBTree Addr} {ctx : List (Frame Addr)}

theorem NilOk.setParent (h : NilOk t) (hq : Aligned q) : NilOk (t.setParent p q) where
  ne_null := h.ne_null
  aligned := h.aligned
  color := by
    rw [Bst.setParent_color hq]
    exact h.color
  child := by
    intro d
    rw [Bst.setParent_child]
    exact h.child d

theorem Linked.ptr_mem_or (h : Linked t s par) : ptr t.nil s = t.nil ∨ ptr t.nil s ∈ s.toList := by
  cases s with
  | leaf => exact Or.inl rfl
  | node c l x r => exact Or.inr (by simp)

/-- The memory holds the tree, and the parent field leads out of the focus even when that is the
    sentinel. -/
structure Focused (t : Bst K V) (ctx : List (Frame Addr)) (s : RBTree Addr) : Prop where
  holds : Holds t (plug ctx s)
  parent : t.parent (ptr t.nil s) = ctxParent t.nil ctx

theorem Holds.focused (h : Holds t (plug ctx s))
    (hleaf : s = leaf → t.parent t.nil = ctxParent t.nil ctx) : Focused t ctx s := by
  refine ⟨h, ?_⟩
  obtain ⟨-, -, hs, -⟩ := holds_plug.1 h
  cases s with
  | leaf => exact hleaf rfl
  | node c l x r => exact hs.1.parent

/-- A tree with a node at the focus has a root. -/
theorem Holds.root_ne_nil (h : Holds t T) (hx : x ∈ T.toList) : t.root ≠ t.nil := by
  intro hroot
  rw [h.root] at hroot
  rw [(ptr_eq_nil_iff h.linked).1 hroot] at hx
  simp at hx

section

variable [Build]

/-- What `bst_transplant` stores. -/
theorem returns_bstTransplant {Q : Unit → Bst K V → Prop} (hnil : NilOk t) (hctx : CtxLinked t ctx x)
    (hx : x ≠ null ∧ x ≠ t.nil) (hpar : t.parent x = ctxParent t.nil ctx) (hlabel : x ∉ labels ctx)
    (hroot : t.root ≠ t.nil) (hne : x ≠ y) (hy : y ≠ null) :
    Returns (bstTransplant x y) t Q ↔ Q () ((t.setHole ctx y).setParent y (ctxParent t.nil ctx)) := by
  have hparnull := hctx.parent_ne_null hnil
  simp only [bstTransplant, returns_bind, returns_get, returns_assert, returns_bstParent, hpar,
    returns_bstReplaceChild hctx hx.2 hlabel, returns_bstSetParent]
  simp [hroot, hne, hx.1, hy, hparnull]

/-- A subtree takes the place of its parent, which has no other child. The sentinel also gets its parent
    set; the fields of the removed node stay. -/
theorem bstTransplant_spec (h : Holds t (plug ctx (dnode d c leaf x s))) :
    Returns (bstTransplant x (ptr t.nil s)) t fun _ t' =>
      Focused t' ctx s ∧ Frames t t' (t.nil :: (plug ctx s).toList) := by
  obtain ⟨hnil, hctx, hs, hnodup⟩ := holds_plug.1 h
  obtain ⟨hx, -, hsub⟩ := linked_dnode.1 hs
  have hroot := h.root_ne_nil (x := x) (by simp [mem_plug])
  have hmem := nodup_plug.1 hnodup
  simp only [nodup_dnode, mem_dnode, List.Disjoint] at hmem
  obtain ⟨⟨-, hxs, -, hns, -⟩, hnc, hcs⟩ := hmem
  rw [ptr_dnode] at hctx
  have hcx : x ∉ labels ctx := fun hl => hcs (Or.inl rfl) hl
  have hne : x ≠ ptr t.nil s := by
    intro hxs'
    rw [hxs'] at hxs hx
    exact hxs (ptr_mem hx.ne_nil)
  have hpar := hctx.parent_aligned hnil
  have hsc : ∀ q ∈ s.toList, q ∉ labels ctx := fun q hq => hcs (Or.inr (Or.inr hq))
  have hnilc : t.nil ∉ labels ctx := fun hl => (hctx.of_mem hl).2.1 rfl
  rw [returns_bstTransplant hnil hctx ⟨hx.ne_null, hx.ne_nil⟩ hx.parent hcx hroot hne
    (hsub.ptr_ne_null hnil)]
  have hholds : Holds ((t.setHole ctx (ptr t.nil s)).setParent (ptr t.nil s) (ctxParent t.nil ctx))
      (plug ctx s) := by
    rw [holds_plug]
    simp only [Bst.setParent_nil, Bst.setHole_nil]
    refine ⟨(hnil.congr (Frames.setHole.agree (by simpa using hnilc))).setParent hpar, ?_, ?_, ?_⟩
    · refine (hctx.setHole hnc).congr (Agree.setParent fun hl => ?_) rfl
      rcases hsub.ptr_mem_or with hleaf | hin
      · exact hnilc (hleaf ▸ hl)
      · exact hsc _ hin hl
    · rcases hsub.ptr_mem_or with hleaf | hin
      · rw [(ptr_eq_nil_iff hsub).1 hleaf]
        trivial
      · have hmoved := (hsub.congr (Frames.setHole.agree hsc)).setParent (q := ctxParent t.nil ctx)
          (t := t.setHole ctx (ptr t.nil s)) (by simpa using (hsub.of_mem hin).2.1) hns hpar
        simpa using hmoved
    · rw [nodup_plug]
      exact ⟨hns, hnc, fun q hq => hsc q hq⟩
  refine ⟨⟨hholds, ?_⟩, (Frames.setHole.subset ?_).trans (Frames.setParent ?_)⟩
  · simp [Bst.setParent_parent hpar]
  · intro q hq
    simp [mem_plug, hq]
  · rcases hsub.ptr_mem_or with hleaf | hin
    · simp [hleaf]
    · simp [mem_plug, hin]

end

/-! ### The outermost node of a subtree -/

theorem bstLocalExtremumLoop_spec {n : Nat} (h : Linked t s par) (hs : s ≠ leaf) (hn : s.height ≤ n) :
    Returns (bstLocalExtremumLoop d n (ptr t.nil s)) t fun r t' => edge d s = some r ∧ t' = t := by
  induction n generalizing s par with
  | zero =>
      cases s with
      | leaf => exact absurd rfl hs
      | node c l x r => simp [height] at hn
  | succ n ih =>
      cases s with
      | leaf => exact absurd rfl hs
      | node c l x r =>
          obtain ⟨near, far, hnode, hheight⟩ : ∃ near far, node c l x r = dnode d c near x far ∧
              near.height ≤ n := by
            simp only [height] at hn
            cases d with
            | left => exact ⟨l, r, rfl, by omega⟩
            | right => exact ⟨r, l, rfl, by omega⟩
          rw [hnode] at h ⊢
          obtain ⟨hx, hnear, -⟩ := linked_dnode.1 h
          simp only [bstLocalExtremumLoop, returns_bind, returns_readChild, returns_get, ptr_dnode,
            hx.near, returns_ite, returns_pure, edge_dnode]
          refine ⟨hx.ne_null, fun hnil => ?_, fun hnil => ?_⟩
          · simp [(ptr_eq_nil_iff hnear).1 hnil]
          · have hleaf : near ≠ leaf := fun hleaf => hnil ((ptr_eq_nil_iff hnear).2 hleaf)
            refine (ih hnear hleaf hheight).mono fun r t' hr => ⟨?_, hr.2⟩
            rw [hr.1]
            rfl

/-! ### The next largest node in place of a node with two children -/

/-- The memory after `y` has taken the place of `x` above `x`'s left subtree. -/
def Bst.replaced (t : Bst K V) (ctx : List (Frame Addr)) (y lp : Addr) (c : Color) : Bst K V :=
  ((((t.setHole ctx y).setParent y (ctxParent t.nil ctx)).setChild .left y lp).setParent lp y).setColor y
    (Color.word c)

theorem Holds.replaced (hnil : NilOk t) (hctx : CtxLinked t ctx x) (hl : Linked t l x)
    (hr : Linked t r y) (hleaf : l ≠ leaf) (hy : y ≠ null ∧ y ≠ t.nil ∧ Aligned y)
    (hright : t.child .right y = ptr t.nil r) (hnodup : (plug ctx (node c l y r)).toList.Nodup) :
    Holds (t.replaced ctx y (ptr t.nil l) c) (plug ctx (node c l y r)) ∧
      Frames t (t.replaced ctx y (ptr t.nil l) c) (plug ctx (node c l y r)).toList := by
  have hmem := nodup_plug.1 hnodup
  have hin := nodup_dnode (d := .left).1 hmem.1
  obtain ⟨hyl, hyr, hnl, hnr, hlr⟩ := hin
  obtain ⟨-, hnc, hcs⟩ := hmem
  simp only [toList_node, List.Disjoint, List.mem_append, List.mem_cons] at hcs
  have hpar := hctx.parent_aligned hnil
  have hcy : y ∉ labels ctx := fun h => hcs (Or.inr (Or.inl rfl)) h
  have hptr : ptr t.nil l ∈ l.toList := ptr_mem fun h => hleaf ((ptr_eq_nil_iff hl).1 h)
  have hpl := hl.of_mem hptr
  have hcl : ptr t.nil l ∉ labels ctx := fun h => hcs (Or.inl hptr) h
  have hyne : y ≠ ptr t.nil l := fun h => hyl (h ▸ hptr)
  have hframe : Frames t (t.replaced ctx y (ptr t.nil l) c) (y :: ptr t.nil l :: labels ctx) := by
    refine (Frames.setHole.subset ?_).trans <| (Frames.setParent ?_).trans <|
      (Frames.setChild ?_).trans <| (Frames.setParent ?_).trans (Frames.setColor ?_)
    all_goals simp +contextual
  have hrnil : (t.replaced ctx y (ptr t.nil l) c).nil = t.nil := by simp [Bst.replaced]
  constructor
  · rw [holds_plug]
    refine ⟨hnil.congr (hframe.agree ?_), ?_, ⟨⟨hy.1, ?_, hy.2.2, ?_, ?_, ?_, ?_⟩, ?_, ?_⟩, hnodup⟩
    · have hnilc : t.nil ∉ labels ctx := fun h => (hctx.of_mem h).2.1 rfl
      simp [hy.2.1.symm, hpl.2.1.symm, hnilc]
    · exact (hctx.setHole hnc).congr ((Agree.setParent hcy).trans <| (Agree.setChild hcy).trans <|
        (Agree.setParent hcl).trans (Agree.setColor hcy)) Bst.setChild_root
    · rw [hrnil]
      exact hy.2.1
    · rw [Bst.replaced, Bst.setColor_color (isTag_word c), if_pos rfl]
    · rw [Bst.replaced, Bst.setColor_parent (isTag_word c), Bst.setParent_parent hy.2.2, if_neg hyne,
        Bst.setChild_parent, Bst.setParent_parent hpar, if_pos rfl, Bst.setColor_nil]
      simp
    · simp [Bst.replaced]
    · have hright' : (t.replaced ctx y (ptr t.nil l) c).child .right y = t.child .right y := by
        simp [Bst.replaced, Bst.setChild_child, Bst.setHole_child hcy]
      rw [hrnil]
      exact hright'.trans hright
    · have hbefore : Agree t (((t.setHole ctx y).setParent y (ctxParent t.nil ctx)).setChild .left y
          (ptr t.nil l)) l.toList :=
        (Frames.setHole.agree fun q hq => hcs (Or.inl hq)).trans <|
          (Agree.setParent hyl).trans (Agree.setChild hyl)
      have hmoved := (hl.congr hbefore).setParent (q := y) (by simpa using hpl.2.1) hnl hy.2.2
      simp only [Bst.setChild_nil, Bst.setParent_nil, Bst.setHole_nil] at hmoved
      exact hmoved.congr (Agree.setColor hyl)
    · refine hr.congr (hframe.agree fun q hq hqx => ?_)
      simp only [List.mem_cons] at hqx
      rcases hqx with rfl | rfl | hqc
      · exact hyr hq
      · exact hlr hptr hq
      · exact hcs (Or.inr (Or.inr hq)) hqc
  · refine hframe.subset fun q hq => ?_
    simp only [List.mem_cons] at hq
    simp only [mem_plug, toList_node, List.mem_append, List.mem_cons]
    rcases hq with rfl | rfl | hqc
    · exact Or.inl (Or.inr (Or.inl rfl))
    · exact Or.inl (Or.inl hptr)
    · exact Or.inr hqc

variable [Build]

/-- The steps of `bst_delete` that put `y` in the place of `x`. -/
theorem returns_spliceTail {Q : Addr × UInt64 → Bst K V → Prop} {w : Addr × UInt64} (hnil : NilOk t)
    (hctx : CtxLinked t ctx x) (hx : x ≠ null ∧ x ≠ t.nil) (hpar : t.parent x = ctxParent t.nil ctx)
    (hleft : t.child .left x = ptr t.nil l) (hcolor : t.color x = Color.word c) (hl : Linked t l x)
    (hlabel : x ∉ labels ctx) (hroot : t.root ≠ t.nil) (hne : x ≠ y) (hy : y ≠ null ∧ Aligned y) :
    Returns (do
      bstTransplant x y
      writeLeft y (← readLeft x)
      bstSetParent (← readLeft y) y
      bstSetColor y (← bstColor x)
      return w) t Q ↔ Q w (t.replaced ctx y (ptr t.nil l) c) := by
  have hparal := hctx.parent_aligned hnil
  have hlnull := hl.ptr_ne_null hnil
  have hword : c = .red ∨ c = .black := by cases c <;> simp
  have hread : ((t.setHole ctx y).setParent y (ctxParent t.nil ctx)).child .left x = ptr t.nil l := by
    rw [Bst.setParent_child, Bst.setHole_child hlabel, hleft]
  have hreadColor : ((((t.setHole ctx y).setParent y (ctxParent t.nil ctx)).setChild .left y
      (ptr t.nil l)).setParent (ptr t.nil l) y).color x = Color.word c := by
    simp [Bst.setParent_color, hy.2, hparal, hcolor]
  simp only [returns_bind, returns_bstTransplant hnil hctx hx hpar hlabel hroot hne hy.1,
    returns_readLeft, returns_writeLeft, returns_bstSetParent, returns_bstColor, returns_bstSetColor,
    returns_pure, hread, Bst.setChild_child_same, hreadColor]
  simp [hx.1, hy.1, hlnull, hword, Bst.replaced]

/-- `y`, which already has `x`'s right subtree below it, takes the place of `x`. -/
theorem spliceTail_spec {rp : Addr} {w : Addr × UInt64} (hnil : NilOk t) (hctx : CtxLinked t ctx x)
    (hx : NodeAt t .left c (ptr t.nil l) rp x (ctxParent t.nil ctx)) (hl : Linked t l x) (hleaf : l ≠ leaf)
    (hy : y ≠ null ∧ y ≠ t.nil ∧ Aligned y) (hr : Linked t r par) (hright : t.child .right y = ptr t.nil r)
    (hnodup : (plug ctx (node c l y r)).toList.Nodup) (hxnot : x ∉ (plug ctx (node c l y r)).toList)
    (hroot : t.root ≠ t.nil) :
    Returns (do
      bstSetParent (ptr t.nil r) y
      bstTransplant x y
      writeLeft y (← readLeft x)
      bstSetParent (← readLeft y) y
      bstSetColor y (← bstColor x)
      return w) t fun res t' => res = w ∧ Holds t' (plug ctx (node c l y r)) ∧
        t'.parent (ptr t.nil r) = y ∧ Frames t t' (ptr t.nil r :: (plug ctx (node c l y r)).toList) := by
  have hmem := nodup_plug.1 hnodup
  obtain ⟨hyl, hyr, hnl, hnr, hlr⟩ := nodup_dnode (d := .left).1 hmem.1
  obtain ⟨-, hnc, hcs⟩ := hmem
  simp only [toList_node, List.Disjoint, List.mem_append, List.mem_cons] at hcs
  simp only [mem_plug, toList_node, List.mem_append, List.mem_cons, not_or] at hxnot
  obtain ⟨⟨hxl, hxy, hxr⟩, hxc⟩ := hxnot
  have hptr : ∀ q, q ≠ t.nil → q ∉ r.toList → q ≠ ptr t.nil r := by
    intro q hqnil hqr hq
    rcases hr.ptr_mem_or with hrnil | hrin
    · exact hqnil (hq.trans hrnil)
    · exact hqr (hq ▸ hrin)
  have hptr' : ∀ l' : List Addr, t.nil ∉ l' → l'.Disjoint r.toList → ptr t.nil r ∉ l' := by
    intro l' hnil' hdisj hin
    rcases hr.ptr_mem_or with hrnil | hrin
    · exact hnil' (hrnil ▸ hin)
    · exact hdisj hin hrin
  have hrl := hptr' l.toList (fun h => (hl.of_mem h).2.1 rfl) hlr
  have hrc := hptr' (labels ctx) (fun h => (hctx.of_mem h).2.1 rfl) fun q hq hqr => hcs (Or.inr (Or.inr hqr)) hq
  have hrl' : Linked (t.setParent (ptr t.nil r) y) r y := by
    rcases hr.ptr_mem_or with hrnil | hrin
    · rw [(ptr_eq_nil_iff hr).1 hrnil]
      trivial
    · exact hr.setParent (hr.of_mem hrin).2.1 hnr hy.2.2
  have hxne := hptr x hx.ne_nil hxr
  have hl' : Linked (t.setParent (ptr t.nil r) y) l x := hl.congr (Agree.setParent hrl)
  have hctx' : CtxLinked (t.setParent (ptr t.nil r) y) ctx x := hctx.congr (Agree.setParent hrc) rfl
  obtain ⟨hholds, hframe⟩ := Holds.replaced (t := t.setParent (ptr t.nil r) y) (hnil.setParent hy.2.2)
    hctx' hl' hrl' hleaf hy (by simpa using hright) hnodup
  rw [returns_bind, returns_bstSetParent, returns_spliceTail (hnil.setParent hy.2.2) hctx'
    ⟨hx.ne_null, hx.ne_nil⟩ ?_ ?_ ?_ hl' hxc hroot hxy ⟨hy.1, hy.2.2⟩ (c := c)]
  · refine ⟨hr.ptr_ne_null hnil, fun _ => hy.1, rfl, hholds, ?_,
      (Frames.setParent (by simp)).trans (hframe.subset fun q hq => List.mem_cons_of_mem _ hq)⟩
    rcases hr.ptr_mem_or with hrnil | hrin
    · have hnotin : t.nil ∉ (plug ctx (node c l y r)).toList := by
        have := hholds.nil_not_mem
        rwa [hframe.nil] at this
      have hsame := (hframe.agree (m := [t.nil]) (by simpa using hnotin)).parent (p := t.nil) (by simp)
      rw [hrnil] at hsame ⊢
      exact hsame.trans (by rw [Bst.setParent_parent hy.2.2, if_pos rfl])
    · obtain ⟨-, -, hs, -⟩ := holds_plug.1 hholds
      cases r with
      | leaf => simp at hrin
      | node cr rl z rr => exact hs.2.2.1.parent
  · rw [Bst.setParent_parent hy.2.2, if_neg hxne]
    exact hx.parent
  · rw [Bst.setParent_child]
    exact hx.near
  · rw [Bst.setParent_color hy.2.2]
    exact hx.color

/-- `bst_delete` on a node with two children: the next largest node takes its place, and what was right of
    that node takes its own. -/
theorem bstDeleteSplice_spec (h : Holds t (plug ctx (node c l x r))) (hl : l ≠ leaf) (hr : r ≠ leaf) :
    Returns (bstDeleteSplice x) t fun res t' => ∃ spine cy y yr,
      r = plug spine (dnode .left cy leaf y yr) ∧ (∀ f ∈ spine, f.dir = .left) ∧
      res = (ptr t.nil yr, Color.word cy) ∧ Focused t' (spine ++ ⟨.right, c, y, l⟩ :: ctx) yr ∧
      Frames t t' (t.nil :: (plug ctx (node c l x r)).toList) := by
  obtain ⟨hnil, hctx, hs, hnodup⟩ := holds_plug.1 h
  obtain ⟨hx, hll, hrl⟩ := hs
  obtain ⟨spine, cy, y, yr, hplug, hdir, hedge⟩ := exists_spine .left hr
  have hmin : Returns (bstLocalMinimum (ptr t.nil r)) t fun y' t' => y' = y ∧ t' = t := by
    have hrnodup := (nodup_dnode (d := .left).1 (nodup_plug.1 hnodup).1).2.2.2.1
    refine (bstLocalExtremumLoop_spec hrl hr (height_le_loopBound hrnodup)).mono fun y' t' hy' => ?_
    rw [hedge] at hy'
    exact ⟨(Option.some.inj hy'.1).symm, hy'.2⟩
  have hfoc : plug (spine ++ ⟨.right, c, x, l⟩ :: ctx) (dnode .left cy leaf y yr) =
      plug ctx (node c l x r) := by
    rw [plug_append, ← hplug]
    rfl
  have h' := h
  rw [← hfoc] at h'
  obtain ⟨-, hctx', hy, hnodup'⟩ := holds_plug.1 h'
  obtain ⟨hy, -, hyr⟩ := linked_dnode.1 hy
  have hxfar : t.child .right x = ptr t.nil r := hx.far
  have hyfar : t.child .right y = ptr t.nil yr := hy.far
  have hynull := hy.ne_null
  simp only [bstDeleteSplice, returns_bind]
  rw [returns_readRight, hxfar]
  refine ⟨hx.ne_null, hmin.mono ?_⟩
  intro y' t' hy'
  rw [hy'.1, hy'.2]
  simp only [returns_bstColor, returns_readRight, returns_ite, hyfar, hxfar, hy.color]
  have hlist : (plug ctx (node c l x r)).toList =
      before ctx ++ (l.toList ++ x :: y :: (plug spine yr).toList) ++ after ctx := by
    rw [toList_plug, toList_node, hplug, toList_spine hdir]
  have hlist' : (plug ctx (node c l y (plug spine yr))).toList =
      before ctx ++ (l.toList ++ y :: (plug spine yr).toList) ++ after ctx := by
    rw [toList_plug, toList_node]
  have hperm : (plug ctx (node c l x r)).toList.Perm (x :: (plug ctx (node c l y (plug spine yr))).toList) := by
    rw [hlist, hlist']
    simp only [List.append_assoc, List.cons_append]
    rw [← List.append_assoc, ← List.append_assoc]
    exact List.perm_middle
  obtain ⟨hxnot, hnodupNew⟩ := List.nodup_cons.1 (hperm.nodup_iff.1 hnodup)
  have hfocNew : plug (spine ++ ⟨.right, c, y, l⟩ :: ctx) yr = plug ctx (node c l y (plug spine yr)) := by
    rw [plug_append]
    rfl
  have hrootNe := h.root_ne_nil (x := x) (by simp [mem_plug])
  refine ⟨hynull, hynull, hx.ne_null, fun hdeep => ?_, fun hadj => ?_⟩
  · rw [returns_bind, returns_readRight, hyfar, returns_bind]
    refine ⟨hynull, (bstTransplant_spec h').mono fun _ t₁ ht₁ => ?_⟩
    obtain ⟨⟨hholds₁, hparent₁⟩, hframe₁⟩ := ht₁
    have hback : plug (spine ++ ⟨.right, c, x, l⟩ :: ctx) yr = plug ctx (node c l x (plug spine yr)) := by
      rw [plug_append]
      rfl
    rw [hback] at hholds₁ hframe₁
    obtain ⟨hnil₁, hctx₁, ⟨hx₁, hll₁, hrl₁⟩, -⟩ := holds_plug.1 hholds₁
    have hynot : y ∉ (plug ctx (node c l x (plug spine yr))).toList := by
      rw [← hback, mem_plug]
      intro hin
      rcases hin with hin | hin
      · exact (nodup_dnode.1 (nodup_plug.1 hnodup').1).2.1 hin
      · exact (nodup_plug.1 hnodup').2.2 (by simp) hin
    rw [mem_plug, toList_node, List.mem_append, List.mem_cons, not_or, not_or, not_or] at hynot
    obtain ⟨⟨hyl, hyx, hyr'⟩, hyc⟩ := hynot
    have hynil : y ≠ t₁.nil := by
      rw [hframe₁.nil]
      exact hy.ne_nil
    have hroot₁ : t₁.root ≠ t₁.nil := hholds₁.root_ne_nil (x := x) (by simp [mem_plug])
    have hxfar₁ : t₁.child .right x = ptr t₁.nil (plug spine yr) := hx₁.far
    rw [returns_bind, returns_readRight, hxfar₁, returns_bind, returns_writeRight, returns_bind,
      returns_readRight, Bst.setChild_child_same]
    refine ⟨hx.ne_null, hynull, hynull, ?_⟩
    have htail := spliceTail_spec (t := t₁.setChild .right y (ptr t₁.nil (plug spine yr)))
      (w := (ptr t.nil yr, Color.word cy)) (c := c)
      (hnil₁.congr (Agree.setChild (by simpa using hynil)))
      (hctx₁.congr (Agree.setChild hyc) rfl)
      (hx₁.congr (Agree.setChild (l := [x]) (by simpa using hyx)) (by simp))
      (hll₁.congr (Agree.setChild hyl)) hl ⟨hynull, hynil, hy.aligned⟩
      (hrl₁.congr (Agree.setChild hyr')) Bst.setChild_child_same hnodupNew hxnot hroot₁
    refine htail.mono fun res t' hres => ?_
    obtain ⟨hres, hholds, -, hframe⟩ := hres
    cases spine with
    | nil =>
        rw [hplug] at hdeep
        exact absurd rfl hdeep
    | cons f spine =>
        have hptr : ptr t₁.nil (plug (f :: spine) yr) ∈ (plug ctx (node c l y (plug (f :: spine) yr))).toList := by
          have hin := ptr_mem (p := t₁.nil) (s := plug (f :: spine) yr) fun hnil' =>
            plug_cons_ne_leaf f spine yr ((ptr_eq_nil_iff hrl₁).1 hnil')
          rw [mem_plug, toList_node, List.mem_append, List.mem_cons]
          exact Or.inl (Or.inr (Or.inr hin))
        have hframe' := hframe.subset (m := (plug ctx (node c l y (plug (f :: spine) yr))).toList) fun q hq => by
          rcases List.mem_cons.1 hq with rfl | hq
          · exact hptr
          · exact hq
        have hsub : ∀ q ∈ (plug ctx (node c l y (plug (f :: spine) yr))).toList,
            q ∈ t.nil :: (plug ctx (node c l x r)).toList := fun q hq =>
          List.mem_cons_of_mem _ (hperm.mem_iff.2 (List.mem_cons_of_mem _ hq))
        have hkeep : Frames t t₁ (t.nil :: (plug ctx (node c l x r)).toList) := by
          refine hframe₁.subset fun q hq => ?_
          rw [hplug]
          simp only [List.mem_cons, mem_plug, toList_node, List.mem_append, mem_dnode] at hq ⊢
          tauto
        refine ⟨f :: spine, cy, y, yr, hplug, hdir, hres, ?_, ?_⟩
        · rw [hfocNew.symm] at hholds
          refine Holds.focused hholds fun hleaf => ?_
          have hnilnot := hholds.nil_not_mem
          rw [hframe.nil, Bst.setChild_nil, hfocNew] at hnilnot
          have hsame := (hframe'.agree (m := [t₁.nil]) (by simpa using hnilnot)).parent
            (p := t₁.nil) (by simp)
          rw [hleaf] at hparent₁
          rw [hframe.nil, Bst.setChild_nil, hsame, Bst.setChild_parent]
          exact hparent₁
        · refine hkeep.trans ((Frames.setChild (hsub y ?_)).trans (hframe'.subset hsub))
          rw [mem_plug, toList_node, List.mem_append, List.mem_cons]
          exact Or.inl (Or.inr (Or.inl rfl))
  · have hspine : spine = [] := by
      cases spine with
      | nil => rfl
      | cons f spine =>
          have hin : y ∈ labels (f :: spine) := by
            rw [not_not.1 hadj, hplug]
            exact ptr_plug_mem
          rw [hplug] at hnodup
          have hdisj := (nodup_plug.1 (nodup_dnode (d := .left).1 (nodup_plug.1 hnodup).1).2.2.2.1).2.2
          exact absurd hin fun hin => hdisj (by simp) hin
    subst hspine
    refine (spliceTail_spec hnil hctx hx hll hl ⟨hy.ne_null, hy.ne_nil, hy.aligned⟩ hyr hyfar hnodupNew
      hxnot hrootNe).mono fun res t' hres => ?_
    obtain ⟨hres, hholds, hparent, hframe⟩ := hres
    refine ⟨[], cy, y, yr, hplug, hdir, hres, ⟨hholds, ?_⟩, ?_⟩
    · rw [hframe.nil]
      exact hparent
    · refine hframe.subset fun q hq => ?_
      rcases List.mem_cons.1 hq with rfl | hq
      · rcases hyr.ptr_mem_or with hrnil | hrin
        · simp [hrnil]
        · simp [mem_plug, hplug, hrin]
      · exact List.mem_cons_of_mem _ (hperm.mem_iff.2 (List.mem_cons_of_mem _ hq))

end

end Jcl
