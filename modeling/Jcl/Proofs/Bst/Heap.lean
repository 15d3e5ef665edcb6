/-
Module: Jcl.Proofs.Bst.Heap
Layer: Proofs
Purpose: The memory of a search tree as fields of its nodes. The rules at the top run the field accessors
  symbolically; `Agree` says that two states have the same fields at some nodes, and `Frames` that they differ at
  most at some nodes.
Imports: Jcl.Lib.TaggedWord, Jcl.BinarySearchTree, Jcl.Proofs.Machine
Trusted boundary: none (fully proved)
Main exports: Bst.parent, Bst.color, Bst.child, Bst.setChild, Bst.setParentColor, returns_readLeft,
  returns_bstSetParent, Agree, Frames
-/
import Jcl.Lib.TaggedWord
import Jcl.BinarySearchTree
import Jcl.Proofs.Machine

namespace Jcl

open RedBlack RedBlack.RBTree TaggedWord

section

variable {K V : Type}

/-! ### The fields of a node -/

/-- The address in a node's parent word. -/
def Bst.parent (t : Bst K V) (p : Addr) : Addr := t.mem.parentColor p &&& ~~~1

/-- The tag in a node's parent word. -/
def Bst.color (t : Bst K V) (p : Addr) : UInt64 := t.mem.parentColor p &&& 1

/-- The child of a node on side `d`. -/
def Bst.child (t : Bst K V) (d : Dir) (p : Addr) : Addr :=
  match d with
  | .left => t.mem.left p
  | .right => t.mem.right p

def Bst.setChild (t : Bst K V) (d : Dir) (p v : Addr) : Bst K V :=
  match d with
  | .left => { t with mem := { t.mem with left := Function.update t.mem.left p v } }
  | .right => { t with mem := { t.mem with right := Function.update t.mem.right p v } }

def Bst.setParentColor (t : Bst K V) (p : Addr) (w : UInt64) : Bst K V :=
  { t with mem := { t.mem with parentColor := Function.update t.mem.parentColor p w } }

def Bst.setParent (t : Bst K V) (p q : Addr) : Bst K V :=
  t.setParentColor p (q ||| (t.mem.parentColor p &&& 1))

def Bst.setColor (t : Bst K V) (p : Addr) (c : UInt64) : Bst K V :=
  t.setParentColor p ((t.mem.parentColor p &&& ~~~1) ||| c)

def Bst.setRoot (t : Bst K V) (p : Addr) : Bst K V := { t with root := p }

def Bst.setList (t : Bst K V) (p v : Addr) : Bst K V :=
  { t with mem := { t.mem with list := Function.update t.mem.list p v } }

/-! ### Symbolic execution of the accessors -/

variable {t : Bst K V} {p q : Addr}

@[simp] theorem returns_deref {Q : Unit → Bst K V → Prop} :
    Returns (deref p) t Q ↔ p ≠ null ∧ Q () t := by
  unfold deref
  by_cases h : p = null <;> simp [h]

@[simp] theorem returns_readLeft {Q : Addr → Bst K V → Prop} :
    Returns (readLeft p) t Q ↔ p ≠ null ∧ Q (t.child .left p) t := by
  simp [readLeft, Bst.child]

@[simp] theorem returns_readRight {Q : Addr → Bst K V → Prop} :
    Returns (readRight p) t Q ↔ p ≠ null ∧ Q (t.child .right p) t := by
  simp [readRight, Bst.child]

@[simp] theorem returns_readList {Q : Addr → Bst K V → Prop} :
    Returns (readList p) t Q ↔ p ≠ null ∧ Q (t.mem.list p) t := by
  simp [readList]

@[simp] theorem returns_readChild {d : Dir} {Q : Addr → Bst K V → Prop} :
    Returns (readChild d p) t Q ↔ p ≠ null ∧ Q (t.child d p) t := by
  cases d <;> simp [readChild]

@[simp] theorem returns_writeLeft {Q : Unit → Bst K V → Prop} :
    Returns (writeLeft p q) t Q ↔ p ≠ null ∧ Q () (t.setChild .left p q) := by
  simp [writeLeft, Bst.setChild]

@[simp] theorem returns_writeRight {Q : Unit → Bst K V → Prop} :
    Returns (writeRight p q) t Q ↔ p ≠ null ∧ Q () (t.setChild .right p q) := by
  simp [writeRight, Bst.setChild]

@[simp] theorem returns_writeList {Q : Unit → Bst K V → Prop} :
    Returns (writeList p q) t Q ↔ p ≠ null ∧ Q () (t.setList p q) := by
  simp [writeList, Bst.setList]

@[simp] theorem returns_writeChild {d : Dir} {Q : Unit → Bst K V → Prop} :
    Returns (writeChild d p q) t Q ↔ p ≠ null ∧ Q () (t.setChild d p q) := by
  cases d <;> simp [writeChild]

@[simp] theorem returns_writeRoot {Q : Unit → Bst K V → Prop} :
    Returns (writeRoot p) t Q ↔ Q () (t.setRoot p) := by
  simp [writeRoot, Bst.setRoot]

section

variable [Build]

@[simp] theorem returns_bstParent {Q : Addr → Bst K V → Prop} :
    Returns (bstParent p) t Q ↔ p ≠ null ∧ Q (t.parent p) t := by
  simp only [bstParent, returns_bind, returns_assert, returns_deref, returns_get, returns_pure,
    decide_eq_true_eq, Bst.parent]
  exact ⟨fun h => h.2, fun h => ⟨fun _ => h.1, h⟩⟩

@[simp] theorem returns_bstColor {Q : UInt64 → Bst K V → Prop} :
    Returns (bstColor p) t Q ↔ p ≠ null ∧ Q (t.color p) t := by
  simp only [bstColor, returns_bind, returns_assert, returns_deref, returns_get, returns_pure,
    decide_eq_true_eq, Bst.color]
  exact ⟨fun h => h.2, fun h => ⟨fun _ => h.1, h⟩⟩

@[simp] theorem returns_bstSetParent {Q : Unit → Bst K V → Prop} :
    Returns (bstSetParent p q) t Q ↔
      p ≠ null ∧ (Build.asserts = true → q ≠ null) ∧ Q () (t.setParent p q) := by
  simp only [bstSetParent, returns_bind, returns_assert, returns_deref, returns_modify,
    decide_eq_true_eq]
  exact ⟨fun h => ⟨h.2.2.1, h.2.1, h.2.2.2⟩, fun h => ⟨fun _ => h.1, h.2.1, h.1, h.2.2⟩⟩

@[simp] theorem returns_bstSetColor {c : UInt64} {Q : Unit → Bst K V → Prop} :
    Returns (bstSetColor p c) t Q ↔
      p ≠ null ∧ (Build.asserts = true → c = bstRed ∨ c = bstBlack) ∧ Q () (t.setColor p c) := by
  simp only [bstSetColor, returns_bind, returns_assert, returns_deref, returns_modify,
    decide_eq_true_eq]
  exact ⟨fun h => ⟨h.2.2.1, h.2.1, h.2.2.2⟩, fun h => ⟨fun _ => h.1, h.2.1, h.1, h.2.2⟩⟩

@[simp] theorem returns_bstSetParentColor {c : UInt64} {Q : Unit → Bst K V → Prop} :
    Returns (bstSetParentColor p q c) t Q ↔
      p ≠ null ∧ (Build.asserts = true → q ≠ null) ∧
        (Build.asserts = true → c = bstRed ∨ c = bstBlack) ∧ Q () (t.setParentColor p (q ||| c)) := by
  simp only [bstSetParentColor, returns_bind, returns_assert, returns_deref, returns_modify,
    decide_eq_true_eq]
  exact ⟨fun h => ⟨h.2.2.2.1, h.2.1, h.2.2.1, h.2.2.2.2⟩,
    fun h => ⟨fun _ => h.1, h.2.1, h.2.2.1, h.1, h.2.2.2⟩⟩

end

/-! ### What the updates leave alone -/

/-- The words of the nodes in `l` and the sentinel's address are the same in both states. -/
def Agree (t t' : Bst K V) (l : List Addr) : Prop :=
  t'.nil = t.nil ∧ ∀ q ∈ l, t'.mem.parentColor q = t.mem.parentColor q ∧
    t'.mem.left q = t.mem.left q ∧ t'.mem.right q = t.mem.right q

/-- Everything but the links of the nodes in `l` and the root is the same in both states. -/
structure Frames (t t' : Bst K V) (l : List Addr) : Prop where
  nil : t'.nil = t.nil
  list : t'.mem.list = t.mem.list
  value : t'.mem.value = t.mem.value
  cache : t'.cache = t.cache
  cmp : t'.cmp = t.cmp
  valueOffset : t'.valueOffset = t.valueOffset
  valueSize : t'.valueSize = t.valueSize
  freeList : t'.freeList = t.freeList
  words : ∀ q ∉ l, t'.mem.parentColor q = t.mem.parentColor q ∧
    t'.mem.left q = t.mem.left q ∧ t'.mem.right q = t.mem.right q

variable {t' t'' : Bst K V} {l m : List Addr} {d d' : Dir} {c : UInt64}

theorem Agree.refl : Agree t t l := ⟨rfl, fun _ _ => ⟨rfl, rfl, rfl⟩⟩

theorem Agree.trans (h : Agree t t' l) (h' : Agree t' t'' l) : Agree t t'' l := by
  constructor
  · exact h'.1.trans h.1
  · intro q hq
    obtain ⟨hc, hl, hr⟩ := h.2 q hq
    obtain ⟨hc', hl', hr'⟩ := h'.2 q hq
    exact ⟨hc'.trans hc, hl'.trans hl, hr'.trans hr⟩

theorem Agree.subset (h : Agree t t' l) (hsub : ∀ q ∈ m, q ∈ l) : Agree t t' m :=
  ⟨h.1, fun q hq => h.2 q (hsub q hq)⟩

theorem Agree.parent (h : Agree t t' l) (hp : p ∈ l) : t'.parent p = t.parent p := by
  rw [Bst.parent, Bst.parent, (h.2 p hp).1]

theorem Agree.color (h : Agree t t' l) (hp : p ∈ l) : t'.color p = t.color p := by
  rw [Bst.color, Bst.color, (h.2 p hp).1]

theorem Agree.child (h : Agree t t' l) (hp : p ∈ l) : t'.child d p = t.child d p := by
  cases d with
  | left => exact (h.2 p hp).2.1
  | right => exact (h.2 p hp).2.2

theorem Frames.refl : Frames t t l := ⟨rfl, rfl, rfl, rfl, rfl, rfl, rfl, rfl, fun _ _ => ⟨rfl, rfl, rfl⟩⟩

theorem Frames.trans (h : Frames t t' l) (h' : Frames t' t'' l) : Frames t t'' l where
  nil := h'.nil.trans h.nil
  list := h'.list.trans h.list
  value := h'.value.trans h.value
  cache := h'.cache.trans h.cache
  cmp := h'.cmp.trans h.cmp
  valueOffset := h'.valueOffset.trans h.valueOffset
  valueSize := h'.valueSize.trans h.valueSize
  freeList := h'.freeList.trans h.freeList
  words := by
    intro q hq
    obtain ⟨hc, hl, hr⟩ := h.words q hq
    obtain ⟨hc', hl', hr'⟩ := h'.words q hq
    exact ⟨hc'.trans hc, hl'.trans hl, hr'.trans hr⟩

theorem Frames.subset (h : Frames t t' l) (hsub : ∀ q ∈ l, q ∈ m) : Frames t t' m where
  nil := h.nil
  list := h.list
  value := h.value
  cache := h.cache
  cmp := h.cmp
  valueOffset := h.valueOffset
  valueSize := h.valueSize
  freeList := h.freeList
  words := fun q hq => h.words q fun hmem => hq (hsub q hmem)

theorem Frames.agree (h : Frames t t' l) (hdisj : ∀ q ∈ m, q ∉ l) : Agree t t' m :=
  ⟨h.nil, fun q hq => h.words q (hdisj q hq)⟩

theorem Frames.agree_of_not_mem (h : Frames t t' [p]) (hp : p ∉ l) : Agree t t' l := by
  apply h.agree
  intro q hq hqp
  rw [List.mem_singleton.1 hqp] at hq
  exact hp hq

theorem Frames.setChild (hp : p ∈ l) : Frames t (t.setChild d p q) l := by
  cases d <;> constructor <;> try rfl
  all_goals
    intro r hr
    have hne : r ≠ p := fun h => hr (h ▸ hp)
    simp [Bst.setChild, hne]

theorem Frames.setParentColor (hp : p ∈ l) : Frames t (t.setParentColor p c) l := by
  constructor <;> try rfl
  intro r hr
  have hne : r ≠ p := fun h => hr (h ▸ hp)
  simp [Bst.setParentColor, hne]

theorem Frames.setParent (hp : p ∈ l) : Frames t (t.setParent p q) l := Frames.setParentColor hp

theorem Frames.setColor (hp : p ∈ l) : Frames t (t.setColor p c) l := Frames.setParentColor hp

theorem Agree.setChild (hp : p ∉ l) : Agree t (t.setChild d p q) l :=
  Frames.agree_of_not_mem (Frames.setChild (by simp)) hp

theorem Agree.setParent (hp : p ∉ l) : Agree t (t.setParent p q) l :=
  Frames.agree_of_not_mem (Frames.setParent (by simp)) hp

theorem Agree.setColor (hp : p ∉ l) : Agree t (t.setColor p c) l :=
  Frames.agree_of_not_mem (Frames.setColor (by simp)) hp

theorem Frames.setRoot : Frames t (t.setRoot p) l :=
  ⟨rfl, rfl, rfl, rfl, rfl, rfl, rfl, rfl, fun _ _ => ⟨rfl, rfl, rfl⟩⟩

/-! ### Reading after an update -/

@[simp] theorem Bst.setChild_root : (t.setChild d p q).root = t.root := by cases d <;> rfl

@[simp] theorem Bst.setChild_nil : (t.setChild d p q).nil = t.nil := by cases d <;> rfl

@[simp] theorem Bst.setChild_parent : (t.setChild d p q).parent = t.parent := by cases d <;> rfl

@[simp] theorem Bst.setChild_color : (t.setChild d p q).color = t.color := by cases d <;> rfl

theorem Bst.setChild_child {r : Addr} :
    (t.setChild d p q).child d' r = if d' = d ∧ r = p then q else t.child d' r := by
  cases d <;> cases d' <;> simp [Bst.setChild, Bst.child, Function.update_apply]

@[simp] theorem Bst.setChild_child_same : (t.setChild d p q).child d p = q := by
  simp [Bst.setChild_child]

@[simp] theorem Bst.setChild_child_other_side {r : Addr} :
    (t.setChild d p q).child d.other r = t.child d.other r := by
  simp [Bst.setChild_child]

@[simp] theorem Bst.setChild_other_child {r : Addr} :
    (t.setChild d.other p q).child d r = t.child d r := by
  cases d <;> simp [Bst.setChild_child, Dir.other]

theorem Bst.setChild_child_of_ne {r : Addr} (h : r ≠ p) :
    (t.setChild d p q).child d' r = t.child d' r := by
  simp [Bst.setChild_child, h]

@[simp] theorem Bst.setParentColor_root : (t.setParentColor p c).root = t.root := rfl

@[simp] theorem Bst.setParentColor_nil : (t.setParentColor p c).nil = t.nil := rfl

@[simp] theorem Bst.setParentColor_child : (t.setParentColor p c).child d = t.child d := by
  cases d <;> rfl

theorem Bst.setParentColor_parent {r : Addr} : (t.setParentColor p c).parent r =
    if r = p then c &&& ~~~1 else t.parent r := by
  by_cases h : r = p <;> simp [Bst.setParentColor, Bst.parent, h]

theorem Bst.setParentColor_color {r : Addr} : (t.setParentColor p c).color r =
    if r = p then c &&& 1 else t.color r := by
  by_cases h : r = p <;> simp [Bst.setParentColor, Bst.color, h]

@[simp] theorem Bst.setParent_root : (t.setParent p q).root = t.root := rfl

@[simp] theorem Bst.setParent_nil : (t.setParent p q).nil = t.nil := rfl

@[simp] theorem Bst.setParent_child : (t.setParent p q).child d = t.child d :=
  Bst.setParentColor_child

theorem Bst.setParent_parent (hq : Aligned q) {r : Addr} :
    (t.setParent p q).parent r = if r = p then q else t.parent r := by
  rw [Bst.setParent, Bst.setParentColor_parent, address_keep_tag _ hq]

theorem Bst.setParent_color (hq : Aligned q) : (t.setParent p q).color = t.color := by
  funext r
  rw [Bst.setParent, Bst.setParentColor_color, tag_keep_tag _ hq]
  by_cases h : r = p
  · rw [if_pos h, h, Bst.color]
  · rw [if_neg h]

theorem Bst.setColor_parent (hc : IsTag c) : (t.setColor p c).parent = t.parent := by
  funext r
  rw [Bst.setColor, Bst.setParentColor_parent, address_keep_address _ hc]
  by_cases h : r = p
  · rw [if_pos h, h, Bst.parent]
  · rw [if_neg h]

theorem Bst.setColor_color (hc : IsTag c) {r : Addr} :
    (t.setColor p c).color r = if r = p then c else t.color r := by
  rw [Bst.setColor, Bst.setParentColor_color, tag_keep_address _ hc]

/-- Storing the colour a node has changes nothing. -/
theorem Bst.setColor_same (h : t.color p = c) : t.setColor p c = t := by
  rw [Bst.setColor, Bst.setParentColor, ← h, Bst.color, split, Function.update_eq_self]

@[simp] theorem Bst.setColor_root : (t.setColor p c).root = t.root := rfl

@[simp] theorem Bst.setColor_nil : (t.setColor p c).nil = t.nil := rfl

@[simp] theorem Bst.setColor_child : (t.setColor p c).child d = t.child d :=
  Bst.setParentColor_child

@[simp] theorem Bst.setRoot_root : (t.setRoot p).root = p := rfl

@[simp] theorem Bst.setRoot_nil : (t.setRoot p).nil = t.nil := rfl

@[simp] theorem Bst.setRoot_child : (t.setRoot p).child = t.child := rfl

@[simp] theorem Bst.setRoot_parent : (t.setRoot p).parent = t.parent := rfl

@[simp] theorem Bst.setRoot_color : (t.setRoot p).color = t.color := rfl

end

end Jcl
