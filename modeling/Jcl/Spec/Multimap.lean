/-
Module: Jcl.Spec.Multimap
Layer: Specification
Purpose: What a tree is for: a multimap of bounded capacity. Its state is the multiset of the stored
  values; keys and values are compared by their ranks in a linear order.
Imports: Jcl.Machine, Jcl.Lib.System
Trusted boundary: human-reviewed spec (BstOp, MultimapStep)
Main exports: BstOp, BstOut, MultimapStep, multimap, multimap_conserved, multimap_bounded
-/
import Jcl.Machine
import Jcl.Lib.System
import Mathlib.Algebra.BigOperators.Group.Multiset.Basic
import Mathlib.Data.Multiset.AddSub
import Mathlib.Order.Defs.LinearOrder

namespace Jcl

/-- A public call on a tree. -/
inductive BstOp (K V : Type) where
  | puts (value : V) (key : K)
  | takes (key : K)
  | getLargest
  | getSmallest
deriving DecidableEq, Repr

/-- The final `*err` and what was stored through `value_out`. -/
abbrev BstOut (V : Type) := JclErr × Option V

section

variable {K V O : Type} [LinearOrder O] {capacity : Nat} {rk : K → O} {rv : V → O}
  {log : List (BstOp K V × BstOut V)} {S S' : Multiset V} {l : BstOp K V × BstOut V}

/-- The calls of the multimap. A removal may choose among the values of one key. -/
inductive MultimapStep (capacity : Nat) (rk : K → O) (rv : V → O) :
    Multiset V → BstOp K V × BstOut V → Multiset V → Prop where
  | full {S : Multiset V} {value : V} {key : K} (hcard : S.card = capacity) :
      MultimapStep capacity rk rv S (.puts value key, .full, none) S
  | put {S : Multiset V} {value : V} {key : K} (hcard : S.card < capacity) :
      MultimapStep capacity rk rv S (.puts value key, .ok, none) (value ::ₘ S)
  | empty {key : K} : MultimapStep capacity rk rv 0 (.takes key, .empty, none) 0
  | badKey {S : Multiset V} {key : K} (hne : S ≠ 0) (habsent : ∀ v ∈ S, rv v ≠ rk key) :
      MultimapStep capacity rk rv S (.takes key, .bstBadKey, none) S
  | taken {S : Multiset V} {key : K} {v : V} (hkey : rv v = rk key) :
      MultimapStep capacity rk rv (v ::ₘ S) (.takes key, .ok, some v) S
  | noLargest : MultimapStep capacity rk rv 0 (.getLargest, .empty, none) 0
  | largest {S : Multiset V} {v : V} (hmax : ∀ w ∈ S, rv w ≤ rv v) :
      MultimapStep capacity rk rv (v ::ₘ S) (.getLargest, .ok, some v) S
  | noSmallest : MultimapStep capacity rk rv 0 (.getSmallest, .empty, none) 0
  | smallest {S : Multiset V} {v : V} (hmin : ∀ w ∈ S, rv v ≤ rv w) :
      MultimapStep capacity rk rv (v ::ₘ S) (.getSmallest, .ok, some v) S

/-- The multimap with room for `capacity` values, empty at first. -/
def multimap (capacity : Nat) (rk : K → O) (rv : V → O) : System (Multiset V) (BstOp K V × BstOut V) where
  init S := S = 0
  step := MultimapStep capacity rk rv

/-- What a call adds. -/
def added : BstOp K V × BstOut V → Multiset V
  | (.puts value _, .ok, _) => {value}
  | _ => 0

/-- What a call hands out. -/
def handedOut : BstOp K V × BstOut V → Multiset V
  | (_, _, some v) => {v}
  | _ => 0

theorem MultimapStep.conserved (h : MultimapStep capacity rk rv S l S') :
    added l + S = handedOut l + S' := by
  cases h with
  | full | empty | badKey | noLargest | noSmallest => rfl
  | put => simp [added, handedOut]
  | taken | largest | smallest => simp [added, handedOut]

theorem MultimapStep.bounded (h : MultimapStep capacity rk rv S l S') (hcard : S.card ≤ capacity) :
    S'.card ≤ capacity := by
  cases h with
  | full | empty | badKey | noLargest | noSmallest => exact hcard
  | put hlt =>
      rw [Multiset.card_cons]
      exact hlt
  | taken | largest | smallest =>
      rw [Multiset.card_cons] at hcard
      exact Nat.le_of_succ_le hcard

/-- No value is lost and none is handed out twice. -/
theorem multimap_conserved (run : (multimap capacity rk rv).Reaches log S) :
    (log.map added).sum = (log.map handedOut).sum + S := by
  induction run with
  | init h =>
      cases h
      rfl
  | step _ h ih =>
      simp only [List.map_append, List.map_cons, List.map_nil, List.sum_append, List.sum_singleton]
      rw [ih, add_assoc, add_assoc, ← MultimapStep.conserved h, add_comm (added _)]

theorem multimap_bounded (run : (multimap capacity rk rv).Reaches log S) : S.card ≤ capacity := by
  refine run.invariant (P := fun S => S.card ≤ capacity) ?_ fun _ _ _ hcard h => h.bounded hcard
  rintro _ rfl
  exact Nat.zero_le _

end

end Jcl
