/-
Module: Jcl.Lib.RedBlack.Tree
Layer: Library
Purpose: Red-black trees seen from a node inside them. A tree is taken apart into a focused subtree and
  the frames from it up to the root (`plug`), which is how iterative algorithms with parent pointers
  walk. Colour and balance conditions are split the same way: `Balanced` and `NoRedRed` for the subtree,
  `CtxBalanced` and `CtxNoRedRed` for the frames. Mirrored cases are one case with a direction.
Trusted boundary: none (fully proved)
Main exports: Color, Dir, RBTree, dnode, Frame, plug, Balanced, NoRedRed, IsRedBlack, toList_plug,
  balanced_plug, noRedRed_plug, two_pow_height_le
-/
import Mathlib.Tactic.Ring
import Mathlib.Tactic.Linarith
import Mathlib.Tactic.Tauto
import Mathlib.Data.List.Basic
import Mathlib.Data.List.Nodup

namespace RedBlack

inductive Color where
  | red
  | black
deriving DecidableEq, Repr

/-- A side of a node. -/
inductive Dir where
  | left
  | right
deriving DecidableEq, Repr

def Dir.other : Dir → Dir
  | .left => .right
  | .right => .left

@[simp] theorem Dir.other_other (d : Dir) : d.other.other = d := by cases d <;> rfl

@[simp] theorem Dir.other_ne (d : Dir) : d.other ≠ d := by cases d <;> simp [Dir.other]

/-- Binary trees with coloured, labelled nodes. -/
inductive RBTree (α : Type) where
  | leaf
  | node (color : Color) (left : RBTree α) (key : α) (right : RBTree α)
deriving Repr

namespace RBTree

variable {α : Type}

/-- Leaves count as black. -/
def color : RBTree α → Color
  | leaf => .black
  | node c _ _ _ => c

/-- The labels in order. -/
def toList : RBTree α → List α
  | leaf => []
  | node _ l x r => l.toList ++ x :: r.toList

def size : RBTree α → Nat
  | leaf => 0
  | node _ l _ r => l.size + r.size + 1

/-- The number of nodes on a longest path from the root. -/
def height : RBTree α → Nat
  | leaf => 0
  | node _ l _ r => max l.height r.height + 1

def blacken : RBTree α → RBTree α
  | leaf => leaf
  | node _ l x r => node .black l x r

def redden : RBTree α → RBTree α
  | leaf => leaf
  | node _ l x r => node .red l x r

/-- A node whose subtree on side `d` is `near`. -/
def dnode (d : Dir) (c : Color) (near : RBTree α) (x : α) (far : RBTree α) : RBTree α :=
  match d with
  | .left => node c near x far
  | .right => node c far x near

theorem dnode_other (d : Dir) (c : Color) (near far : RBTree α) (x : α) :
    dnode d.other c far x near = dnode d c near x far := by cases d <;> rfl

/-- Every node is a node seen from either side. -/
theorem exists_dnode (d : Dir) (c : Color) (l r : RBTree α) (x : α) :
    ∃ near far, node c l x r = dnode d c near x far := by
  cases d with
  | left => exact ⟨l, r, rfl⟩
  | right => exact ⟨r, l, rfl⟩

@[simp] theorem color_leaf : (leaf : RBTree α).color = .black := rfl

@[simp] theorem color_node (c : Color) (l r : RBTree α) (x : α) : (node c l x r).color = c := rfl

@[simp] theorem color_dnode (d : Dir) (c : Color) (near far : RBTree α) (x : α) :
    (dnode d c near x far).color = c := by cases d <;> rfl

@[simp] theorem blacken_leaf : (leaf : RBTree α).blacken = leaf := rfl

@[simp] theorem blacken_node (c : Color) (l r : RBTree α) (x : α) :
    (node c l x r).blacken = node .black l x r := rfl

@[simp] theorem blacken_dnode (d : Dir) (c : Color) (near far : RBTree α) (x : α) :
    (dnode d c near x far).blacken = dnode d .black near x far := by cases d <;> rfl

@[simp] theorem color_blacken (t : RBTree α) : t.blacken.color = .black := by cases t <;> rfl

@[simp] theorem toList_leaf : (leaf : RBTree α).toList = [] := rfl

@[simp] theorem toList_node (c : Color) (l r : RBTree α) (x : α) :
    (node c l x r).toList = l.toList ++ x :: r.toList := rfl

@[simp] theorem toList_blacken (t : RBTree α) : t.blacken.toList = t.toList := by cases t <;> rfl

@[simp] theorem toList_redden (t : RBTree α) : t.redden.toList = t.toList := by cases t <;> rfl

theorem length_toList (t : RBTree α) : t.toList.length = t.size := by
  induction t with
  | leaf => rfl
  | node c l x r ihl ihr =>
      simp only [toList_node, List.length_append, List.length_cons, ihl, ihr, size]
      omega

theorem eq_leaf_of_toList {t : RBTree α} (h : t.toList = []) : t = leaf := by
  cases t with
  | leaf => rfl
  | node c l x r => simp at h

end RBTree

open RedBlack.RBTree

variable {α : Type}

/-- One step of a path to the root: the parent's colour and label, the side it is entered from, and the
    subtree on its other side. -/
structure Frame (α : Type) where
  dir : Dir
  color : Color
  key : α
  sib : RBTree α

/-- The subtree at the parent. -/
def Frame.fill (f : Frame α) (t : RBTree α) : RBTree α := dnode f.dir f.color t f.key f.sib

/-- The whole tree around a focused subtree; the innermost frame comes first. -/
def plug : List (Frame α) → RBTree α → RBTree α
  | [], t => t
  | f :: ctx, t => plug ctx (f.fill t)

@[simp] theorem plug_nil (t : RBTree α) : plug [] t = t := rfl

@[simp] theorem plug_cons (f : Frame α) (ctx : List (Frame α)) (t : RBTree α) :
    plug (f :: ctx) t = plug ctx (f.fill t) := rfl

/-- The focus moves to the sibling. -/
theorem plug_flip (d : Dir) (c : Color) (k : α) (sib t : RBTree α) (ctx : List (Frame α)) :
    plug (⟨d, c, k, sib⟩ :: ctx) t = plug (⟨d.other, c, k, t⟩ :: ctx) sib := by
  simp only [plug_cons, Frame.fill, dnode_other]

theorem plug_append (c₁ c₂ : List (Frame α)) (t : RBTree α) : plug (c₁ ++ c₂) t = plug c₂ (plug c₁ t) := by
  induction c₁ generalizing t with
  | nil => rfl
  | cons f c₁ ih => exact ih (f.fill t)

/-- Labels before the focus. -/
def before : List (Frame α) → List α
  | [] => []
  | f :: ctx => before ctx ++ (match f.dir with
      | .left => []
      | .right => f.sib.toList ++ [f.key])

/-- Labels after the focus. -/
def after : List (Frame α) → List α
  | [] => []
  | f :: ctx => (match f.dir with
      | .left => f.key :: f.sib.toList
      | .right => []) ++ after ctx

/-- The labels of the frames, in no particular order. -/
def labels : List (Frame α) → List α
  | [] => []
  | f :: ctx => f.key :: (f.sib.toList ++ labels ctx)

@[simp] theorem labels_nil : labels ([] : List (Frame α)) = [] := rfl

@[simp] theorem labels_cons (f : Frame α) (ctx : List (Frame α)) :
    labels (f :: ctx) = f.key :: (f.sib.toList ++ labels ctx) := rfl

theorem length_le_length_labels (ctx : List (Frame α)) : ctx.length ≤ (labels ctx).length := by
  induction ctx with
  | nil => exact Nat.le_refl 0
  | cons f ctx ih =>
      simp only [labels_cons, List.length_cons, List.length_append]
      omega

theorem perm_fill (f : Frame α) (t : RBTree α) :
    (f.fill t).toList.Perm (t.toList ++ f.key :: f.sib.toList) := by
  cases hd : f.dir with
  | left => simp [Frame.fill, dnode, hd]
  | right =>
      have hcons : (f.sib.toList ++ f.key :: t.toList).Perm (f.key :: (f.sib.toList ++ t.toList)) :=
        List.perm_middle
      simp only [Frame.fill, dnode, hd, toList_node]
      exact hcons.trans ((List.perm_append_comm.cons f.key).trans List.perm_middle.symm)

/-- The labels of a tree are those of the focus and those of the frames. -/
theorem perm_plug (ctx : List (Frame α)) (t : RBTree α) :
    (plug ctx t).toList.Perm (t.toList ++ labels ctx) := by
  induction ctx generalizing t with
  | nil => simp
  | cons f ctx ih =>
      have hfill := (perm_fill f t).append_right (labels ctx)
      simp only [List.append_assoc, List.cons_append] at hfill
      exact (ih (f.fill t)).trans hfill

theorem mem_plug {ctx : List (Frame α)} {t : RBTree α} {x : α} :
    x ∈ (plug ctx t).toList ↔ x ∈ t.toList ∨ x ∈ labels ctx := by
  rw [(perm_plug ctx t).mem_iff, List.mem_append]

theorem mem_plug_leaf {ctx : List (Frame α)} {x : α} : x ∈ (plug ctx leaf).toList ↔ x ∈ labels ctx := by
  simp [mem_plug, -plug_cons]

/-- Every label is the label of a node inside its frames. -/
theorem exists_plug {t : RBTree α} {x : α} (hx : x ∈ t.toList) :
    ∃ ctx c l r, t = plug ctx (node c l x r) := by
  induction t with
  | leaf => simp at hx
  | node c l y r ihl ihr =>
      rw [toList_node, List.mem_append, List.mem_cons] at hx
      rcases hx with hx | rfl | hx
      · obtain ⟨ctx, c', l', r', rfl⟩ := ihl hx
        exact ⟨ctx ++ [⟨.left, c, y, r⟩], c', l', r', by rw [plug_append]; rfl⟩
      · exact ⟨[], c, l, r, rfl⟩
      · obtain ⟨ctx, c', l', r', rfl⟩ := ihr hx
        exact ⟨ctx ++ [⟨.right, c, y, l⟩], c', l', r', by rw [plug_append]; rfl⟩

theorem nodup_plug {ctx : List (Frame α)} {t : RBTree α} :
    (plug ctx t).toList.Nodup ↔
      t.toList.Nodup ∧ (labels ctx).Nodup ∧ t.toList.Disjoint (labels ctx) := by
  rw [(perm_plug ctx t).nodup_iff, List.nodup_append']

@[simp] theorem mem_dnode {d : Dir} {c : Color} {near far : RBTree α} {x y : α} :
    y ∈ (dnode d c near x far).toList ↔ y = x ∨ y ∈ near.toList ∨ y ∈ far.toList := by
  cases d <;> simp only [dnode, toList_node, List.mem_append, List.mem_cons] <;> tauto

@[simp] theorem mem_fill {f : Frame α} {t : RBTree α} {y : α} :
    y ∈ (f.fill t).toList ↔ y = f.key ∨ y ∈ t.toList ∨ y ∈ f.sib.toList := mem_dnode

theorem nodup_dnode {d : Dir} {c : Color} {near far : RBTree α} {x : α} :
    (dnode d c near x far).toList.Nodup ↔
      x ∉ near.toList ∧ x ∉ far.toList ∧ near.toList.Nodup ∧ far.toList.Nodup ∧
        near.toList.Disjoint far.toList := by
  have hcomm : near.toList.Disjoint far.toList ↔ far.toList.Disjoint near.toList := List.disjoint_comm
  cases d <;>
    simp only [dnode, toList_node, List.nodup_append', List.nodup_cons, List.disjoint_cons_right] <;>
    tauto

theorem plug_cons_ne_leaf (f : Frame α) (ctx : List (Frame α)) (t : RBTree α) :
    plug (f :: ctx) t ≠ leaf := by
  intro h
  have hin : f.key ∈ (plug (f :: ctx) t).toList := mem_plug.2 (Or.inr (by simp))
  rw [h] at hin
  simp at hin

theorem toList_plug (ctx : List (Frame α)) (t : RBTree α) :
    (plug ctx t).toList = before ctx ++ t.toList ++ after ctx := by
  induction ctx generalizing t with
  | nil => simp [before, after]
  | cons f ctx ih =>
      rw [plug_cons, ih]
      cases hd : f.dir <;> simp [before, after, Frame.fill, dnode, hd]

/-! ### The outermost node on a side -/

/-- The first label (`.left`) or the last one (`.right`). -/
def edge (d : Dir) : RBTree α → Option α
  | leaf => none
  | node _ l x r => ((match d with
      | .left => edge d l
      | .right => edge d r)).or (some x)

@[simp] theorem edge_leaf (d : Dir) : edge d (leaf : RBTree α) = none := rfl

@[simp] theorem edge_dnode (d : Dir) (c : Color) (near far : RBTree α) (x : α) :
    edge d (dnode d c near x far) = (edge d near).or (some x) := by cases d <;> rfl

theorem edge_left (t : RBTree α) : edge .left t = t.toList.head? := by
  induction t with
  | leaf => rfl
  | node c l x r ihl _ =>
      rw [edge, ihl, toList_node, List.head?_append]
      rfl

theorem edge_right (t : RBTree α) : edge .right t = t.toList.getLast? := by
  induction t with
  | leaf => rfl
  | node c l x r _ ihr =>
      rw [edge, ihr, toList_node, List.getLast?_append, List.getLast?_cons]
      cases r.toList.getLast? <;> simp

theorem edge_eq_none {d : Dir} {t : RBTree α} : edge d t = none ↔ t = leaf := by
  cases t with
  | leaf => simp
  | node c l x r => simp [edge]

/-- A path that always goes to side `d` ends at the outermost node. -/
theorem exists_spine (d : Dir) {t : RBTree α} (ht : t ≠ leaf) :
    ∃ ctx c x far, t = plug ctx (dnode d c leaf x far) ∧ (∀ f ∈ ctx, f.dir = d) ∧
      edge d t = some x := by
  induction t with
  | leaf => exact absurd rfl ht
  | node c l x r ihl ihr =>
      obtain ⟨near, far, hnode, ihn⟩ : ∃ near far, node c l x r = dnode d c near x far ∧
          (near ≠ leaf → ∃ ctx c x far, near = plug ctx (dnode d c leaf x far) ∧
            (∀ f ∈ ctx, f.dir = d) ∧ edge d near = some x) := by
        cases d with
        | left => exact ⟨l, r, rfl, ihl⟩
        | right => exact ⟨r, l, rfl, ihr⟩
      rw [hnode]
      by_cases hnear : near = leaf
      · exact ⟨[], c, x, far, by simp [hnear], by simp, by simp [hnear]⟩
      · obtain ⟨ctx, c', y, far', hplug, hdir, hedge⟩ := ihn hnear
        refine ⟨ctx ++ [⟨d, c, x, far⟩], c', y, far', ?_, ?_, ?_⟩
        · rw [plug_append, ← hplug]
          rfl
        · intro f hf
          rcases List.mem_append.1 hf with hf | hf
          · exact hdir f hf
          · rw [List.mem_singleton.1 hf]
        · rw [edge_dnode, hedge]
          rfl

/-- Nothing comes before a path that always goes left. -/
theorem before_spine {ctx : List (Frame α)} (h : ∀ f ∈ ctx, f.dir = .left) : before ctx = [] := by
  induction ctx with
  | nil => rfl
  | cons f ctx ih =>
      simp only [List.mem_cons, forall_eq_or_imp] at h
      simp [before, h.1, ih h.2]

/-- Taking the first label out of a tree. -/
theorem toList_spine {ctx : List (Frame α)} (h : ∀ f ∈ ctx, f.dir = .left) (c : Color) (x : α)
    (far : RBTree α) :
    (plug ctx (dnode .left c leaf x far)).toList = x :: (plug ctx far).toList := by
  rw [toList_plug, toList_plug, before_spine h]
  simp [dnode]

theorem height_le_size (t : RBTree α) : t.height ≤ t.size := by
  induction t with
  | leaf => exact Nat.le_refl 0
  | node c l x r ihl ihr =>
      simp only [height, size]
      omega

/-! ### Colours and black heights -/

/-- What a node adds to black heights. -/
def Color.weight : Color → Nat
  | .red => 0
  | .black => 1

/-- Every path to a leaf has `n` black nodes. -/
def Balanced : RBTree α → Nat → Prop
  | leaf, n => n = 0
  | node c l _ r, n => ∃ m, n = m + c.weight ∧ Balanced l m ∧ Balanced r m

/-- No red node has a red child. -/
def NoRedRed : RBTree α → Prop
  | leaf => True
  | node c l _ r => (c = .red → l.color = .black ∧ r.color = .black) ∧ NoRedRed l ∧ NoRedRed r

/-- The red-black conditions. -/
structure IsRedBlack (t : RBTree α) : Prop where
  root : t.color = .black
  noRedRed : NoRedRed t
  balanced : ∃ n, Balanced t n

@[simp] theorem balanced_leaf {n : Nat} : Balanced (leaf : RBTree α) n ↔ n = 0 := Iff.rfl

@[simp] theorem balanced_dnode {d : Dir} {c : Color} {near far : RBTree α} {x : α} {n : Nat} :
    Balanced (dnode d c near x far) n ↔ ∃ m, n = m + c.weight ∧ Balanced near m ∧ Balanced far m := by
  cases d with
  | left => exact Iff.rfl
  | right => exact exists_congr fun m => and_congr_right fun _ => and_comm

@[simp] theorem noRedRed_leaf : NoRedRed (leaf : RBTree α) := trivial

@[simp] theorem noRedRed_dnode {d : Dir} {c : Color} {near far : RBTree α} {x : α} :
    NoRedRed (dnode d c near x far) ↔
      (c = .red → near.color = .black ∧ far.color = .black) ∧ NoRedRed near ∧ NoRedRed far := by
  cases d with
  | left => exact Iff.rfl
  | right =>
      constructor
      · rintro ⟨hc, hl, hr⟩
        exact ⟨fun h => (hc h).symm, hr, hl⟩
      · rintro ⟨hc, hl, hr⟩
        exact ⟨fun h => (hc h).symm, hr, hl⟩

theorem Balanced.unique {t : RBTree α} {n m : Nat} (h : Balanced t n) (h' : Balanced t m) : n = m := by
  induction t generalizing n m with
  | leaf => exact h.trans h'.symm
  | node c l x r ihl _ =>
      obtain ⟨i, rfl, hl, -⟩ := h
      obtain ⟨j, rfl, hl', -⟩ := h'
      rw [ihl hl hl']

/-- The frames around a focus of black height `n` keep the tree balanced. -/
def CtxBalanced : List (Frame α) → Nat → Prop
  | [], _ => True
  | f :: ctx, n => Balanced f.sib n ∧ CtxBalanced ctx (n + f.color.weight)

/-- The frames around a focus of colour `c` have no red node with a red child. -/
def CtxNoRedRed : List (Frame α) → Color → Prop
  | [], _ => True
  | f :: ctx, c => (f.color = .red → c = .black ∧ f.sib.color = .black) ∧ NoRedRed f.sib ∧
      CtxNoRedRed ctx f.color

/-- The outermost frame is black. -/
def RootBlack : List (Frame α) → Prop
  | [] => True
  | [f] => f.color = .black
  | _ :: g :: ctx => RootBlack (g :: ctx)

theorem balanced_plug {ctx : List (Frame α)} {t : RBTree α} :
    (∃ n, Balanced (plug ctx t) n) ↔ ∃ n, Balanced t n ∧ CtxBalanced ctx n := by
  induction ctx generalizing t with
  | nil => simp [CtxBalanced]
  | cons f ctx ih =>
      rw [plug_cons, ih]
      constructor
      · rintro ⟨n, hfill, hctx⟩
        obtain ⟨m, rfl, ht, hsib⟩ := balanced_dnode.1 hfill
        exact ⟨m, ht, hsib, hctx⟩
      · rintro ⟨m, ht, hsib, hctx⟩
        exact ⟨m + f.color.weight, balanced_dnode.2 ⟨m, rfl, ht, hsib⟩, hctx⟩

theorem noRedRed_plug {ctx : List (Frame α)} {t : RBTree α} :
    NoRedRed (plug ctx t) ↔ NoRedRed t ∧ CtxNoRedRed ctx t.color := by
  induction ctx generalizing t with
  | nil => simp [CtxNoRedRed]
  | cons f ctx ih =>
      rw [plug_cons, ih]
      simp only [Frame.fill, noRedRed_dnode, color_dnode, CtxNoRedRed]
      constructor
      · rintro ⟨⟨hc, ht, hsib⟩, hctx⟩
        exact ⟨ht, hc, hsib, hctx⟩
      · rintro ⟨ht, hc, hsib, hctx⟩
        exact ⟨⟨hc, ht, hsib⟩, hctx⟩

theorem color_plug_iff {f : Frame α} {ctx : List (Frame α)} {t : RBTree α} :
    (plug (f :: ctx) t).color = .black ↔ RootBlack (f :: ctx) := by
  induction ctx generalizing f t with
  | nil => simp [RootBlack, Frame.fill]
  | cons g ctx ih => exact @ih g (f.fill t)

/-- A black subtree is also fine where a focus of any colour was. -/
theorem CtxNoRedRed.of_black {ctx : List (Frame α)} {c : Color} (h : CtxNoRedRed ctx c) :
    CtxNoRedRed ctx .black := by
  cases ctx with
  | nil => trivial
  | cons f ctx => exact ⟨fun hred => ⟨rfl, (h.1 hred).2⟩, h.2⟩

/-! ### Height -/

theorem two_pow_le_size {t : RBTree α} {n : Nat} (h : Balanced t n) : 2 ^ n ≤ t.size + 1 := by
  induction t generalizing n with
  | leaf => simp [balanced_leaf.1 h]
  | node c l x r ihl ihr =>
      obtain ⟨m, rfl, hl, hr⟩ := h
      have hleft := ihl hl
      have hright := ihr hr
      have hpow : 2 ^ (m + c.weight) ≤ 2 ^ m * 2 := by
        rw [← Nat.pow_succ]
        exact Nat.pow_le_pow_right (by omega) (by cases c <;> simp [Color.weight])
      simp only [size]
      omega

/-- At most every other node on a path is red. -/
theorem height_le {t : RBTree α} {n : Nat} (hbal : Balanced t n) (hnrr : NoRedRed t) :
    t.height + t.color.weight ≤ 2 * n + 1 := by
  induction t generalizing n with
  | leaf => simp [height, Color.weight]
  | node c l x r ihl ihr =>
      obtain ⟨m, rfl, hl, hr⟩ := hbal
      obtain ⟨hc, hnl, hnr⟩ := hnrr
      have hleft := ihl hl hnl
      have hright := ihr hr hnr
      simp only [height, color_node]
      cases c with
      | red =>
          obtain ⟨hcl, hcr⟩ := hc rfl
          rw [hcl] at hleft
          rw [hcr] at hright
          simp only [Color.weight] at hleft hright ⊢
          omega
      | black =>
          simp only [Color.weight] at *
          omega

/-- A red-black tree is at most twice as high as a perfectly balanced one. -/
theorem IsRedBlack.two_pow_height_le {t : RBTree α} (h : IsRedBlack t) :
    2 ^ t.height ≤ (t.size + 1) ^ 2 := by
  obtain ⟨n, hbal⟩ := h.balanced
  have hheight := height_le hbal h.noRedRed
  rw [h.root] at hheight
  simp only [Color.weight] at hheight
  calc 2 ^ t.height ≤ 2 ^ (n * 2) := Nat.pow_le_pow_right (by omega) (by omega)
    _ = (2 ^ n) ^ 2 := Nat.pow_mul 2 n 2
    _ ≤ (t.size + 1) ^ 2 := Nat.pow_le_pow_left (two_pow_le_size hbal) 2

end RedBlack
