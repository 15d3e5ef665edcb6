/-
Module: Jcl.Proofs.Bst.Find
Layer: Proofs
Purpose: `bst_find` performs the search `seek` on the tree in memory, probing each node with the comparator.
Imports: Jcl.Lib.RedBlack.Seek, Jcl.Proofs.Bst.FixupDelete
Trusted boundary: none (fully proved)
Main exports: Bst.valueAt, probe, FoundAt, bstFindLoop_spec, bstFind_spec
-/
import Jcl.Lib.RedBlack.Seek
import Jcl.Proofs.Bst.FixupDelete

namespace Jcl

open RedBlack RedBlack.RBTree TaggedWord

section

variable {K V : Type} {t t' : Bst K V} {cmp : K → V → Int} {key : K} {s T : RBTree Addr}
  {ctx : List (Frame Addr)} {p : Addr}

/-- The value a node holds. -/
def Bst.valueAt (t : Bst K V) (node : Addr) : V := t.mem.value (node + t.valueOffset)

/-- What the comparator says about a node. -/
def probe (t : Bst K V) (cmp : K → V → Int) (key : K) (node : Addr) : Int := cmp key (t.valueAt node)

/-- What the probe said at the parent of the focus. -/
def ctxCmp (g : Addr → Int) : List (Frame Addr) → Int
  | [] => 0
  | f :: _ => g f.key

/-- The location names the focus, its parent and what the comparator said there. -/
structure FoundAt (t : Bst K V) (g : Addr → Int) (ctx : List (Frame Addr)) (s : RBTree Addr)
    (location : BstLocation) : Prop where
  node : location.node = ptr t.nil s
  parent : location.parent = ctxParent t.nil ctx
  parentCmp : location.parentCmp = ctxCmp g ctx

theorem foundAt_start (h : Holds t T) (g : Addr → Int) : FoundAt t g [] T (bstFindStart t) :=
  ⟨h.root, rfl, rfl⟩

@[simp] theorem returns_callCmp {value : V} {Q : Int → Bst K V → Prop} (hcmp : t.cmp = some cmp) :
    Returns (callCmp key value) t Q ↔ Q (cmp key value) t := by
  simp [callCmp, hcmp]

variable [Build]

@[simp] theorem returns_bstContainerValue {Q : Addr → Bst K V → Prop} (hoff : 0 < t.valueOffset) :
    Returns (bstContainerValue p) t Q ↔ Q (p + t.valueOffset) t := by
  simp [bstContainerValue, jfsMlgApplyOffset, hoff]

theorem bstFindLoop_spec {n : Nat} {location : BstLocation} (hcmp : t.cmp = some cmp)
    (hoff : 0 < t.valueOffset) (h : Holds t (plug ctx s)) (hn : s.height ≤ n)
    (hloc : FoundAt t (probe t cmp key) ctx s location) :
    Returns (bstFindLoop key n location) t fun location' t' => t' = t ∧
      FoundAt t (probe t cmp key) (seek (probe t cmp key) ctx s).1 (seek (probe t cmp key) ctx s).2
        location' := by
  induction n generalizing ctx s location with
  | zero =>
      cases s with
      | leaf =>
          simp only [bstFindLoop, returns_bind, returns_get, returns_ite, returns_pure, hloc.node]
          exact ⟨fun _ => ⟨trivial, hloc⟩, fun hne => absurd rfl hne⟩
      | node c l x r => simp [height] at hn
  | succ n ih =>
      cases s with
      | leaf =>
          simp only [bstFindLoop, returns_bind, returns_get, returns_ite, returns_pure, hloc.node]
          exact ⟨fun _ => ⟨trivial, hloc⟩, fun hne => absurd rfl hne⟩
      | node c l x r =>
          obtain ⟨-, -, hx, -⟩ := holds_plug.1 h
          have hright : t.child .right x = ptr t.nil r := hx.1.far
          simp only [height] at hn
          have hl : Holds t (plug (⟨.left, c, x, r⟩ :: ctx) l) := h
          have hr : Holds t (plug (⟨.right, c, x, l⟩ :: ctx) r) := h
          simp only [bstFindLoop, returns_bind, returns_get, returns_ite, returns_pure, hloc.node, ptr_node]
          rw [returns_bstContainerValue hoff, returns_callCmp hcmp, returns_readLeft, returns_readRight]
          change (x = t.nil → True ∧ _) ∧ (¬ x = t.nil → (probe t cmp key x = 0 → _) ∧
            (¬ probe t cmp key x = 0 → (probe t cmp key x < 0 → _) ∧ (¬ probe t cmp key x < 0 → _)))
          refine ⟨fun hnil => absurd hnil hx.1.ne_nil, fun _ => ⟨fun hzero => ?_, fun hzero =>
            ⟨fun hneg => ⟨hx.1.ne_null, ?_⟩, fun hneg => ⟨hx.1.ne_null, ?_⟩⟩⟩⟩
          · rw [seek, if_pos hzero]
            exact ⟨rfl, hloc⟩
          · rw [seek, if_neg hzero, if_pos hneg]
            exact ih hl (by omega) ⟨hx.1.near, rfl, rfl⟩
          · rw [seek, if_neg hzero, if_neg hneg]
            exact ih hr (by omega) ⟨hright, rfl, rfl⟩

/-- `bst_find` ends where the search ends. -/
theorem bstFind_spec (hcmp : t.cmp = some cmp) (hoff : 0 < t.valueOffset) (h : Holds t T) :
    Returns (bstFind key) t fun location t' => t' = t ∧
      FoundAt t (probe t cmp key) (seek (probe t cmp key) [] T).1 (seek (probe t cmp key) [] T).2
        location := by
  simp only [bstFind, returns_bind, returns_get]
  exact bstFindLoop_spec hcmp hoff (show Holds t (plug [] T) from h) (height_le_loopBound h.nodup) (foundAt_start h _)

/-- More rounds do not change what the loop returns. -/
theorem bstFindLoop_mono {n m : Nat} {location : BstLocation} {Q : BstLocation → Bst K V → Prop}
    (h : Returns (bstFindLoop key n location) t Q) (hm : n ≤ m) :
    Returns (bstFindLoop key m location) t Q := by
  induction n generalizing m location t with
  | zero =>
      simp only [bstFindLoop, returns_bind, returns_get, returns_ite, returns_pure] at h
      have hnil : location.node = t.nil := by
        by_contra hne
        simpa using h.2 hne
      cases m with
      | zero => simpa [bstFindLoop, returns_ite, hnil] using h.1 hnil
      | succ m => simpa [bstFindLoop, returns_ite, hnil] using h.1 hnil
  | succ n ih =>
      obtain ⟨m, rfl⟩ : ∃ k, m = k + 1 := ⟨m - 1, by omega⟩
      simp only [bstFindLoop, returns_bind, returns_get, returns_ite, returns_pure] at h ⊢
      refine ⟨h.1, fun hne => (h.2 hne).mono fun _ t₁ h₁ => h₁.mono fun c t₂ h₂ => ⟨h₂.1, fun hc => ?_⟩⟩
      obtain ⟨hleft, hright⟩ := h₂.2 hc
      exact ⟨fun hneg => (hleft hneg).mono fun _ _ hrec => ih hrec (by omega),
        fun hneg => (hright hneg).mono fun _ _ hrec => ih hrec (by omega)⟩

/-- `bst_pack_node` only writes a value. -/
@[simp] theorem returns_bstPackNode {v : V} {Q : Addr → Bst K V → Prop} (hoff : 0 < t.valueOffset) :
    Returns (bstPackNode p v) t Q ↔ Q (p + t.valueOffset) { t with mem := { t.mem with
      value := Function.update t.mem.value (p + t.valueOffset) v } } := by
  simp [bstPackNode, returns_bstContainerValue hoff]

end

end Jcl
