/-
Module: Jcl.Lib.System
Layer: Library
Purpose: Transition systems with labels, the traces of their runs, and the rules for them: an invariant
  of every step holds in every reached state, and a system whose steps a second one can follow has no
  traces that the second one lacks. A system of several parts is followed part by part. The costs of the steps add
  up to a constant for each, if a potential pays for the rest. A record may be kept along the steps.
Trusted boundary: none (fully proved)
Main exports: System, System.Reaches, System.restrict, System.Reaches.invariant, System.Reaches.simulation,
  System.Reaches.components, System.traced, System.Reaches.amortised, System.recorded, System.Reaches.recorded
-/
import Mathlib.Algebra.Ring.Nat

/-- States to start from, and steps with a label. -/
structure System (S L : Type) where
  init : S → Prop
  step : S → L → S → Prop

namespace System

variable {S A L : Type} {sys : System S L} {abs : System A L} {trace : List L} {s : S}

/-- Some run with these labels ends in this state. -/
inductive Reaches (sys : System S L) : List L → S → Prop where
  | init {s : S} (h : sys.init s) : Reaches sys [] s
  | step {trace : List L} {s s' : S} {l : L} (reached : Reaches sys trace s) (h : sys.step s l s') :
      Reaches sys (trace ++ [l]) s'

/-- The steps that satisfy a condition. -/
def restrict (sys : System S L) (p : S → L → Prop) : System S L where
  init := sys.init
  step s l s' := p s l ∧ sys.step s l s'

/-- The same steps, with labels that also tell the states before and after. -/
def traced (sys : System S L) : System S (S × L × S) where
  init := sys.init
  step s l s' := l.1 = s ∧ l.2.2 = s' ∧ sys.step s l.2.1 s'

theorem Reaches.invariant {P : S → Prop} (run : sys.Reaches trace s) (hinit : ∀ s, sys.init s → P s)
    (hstep : ∀ s l s', P s → sys.step s l s' → P s') : P s := by
  induction run with
  | init h => exact hinit _ h
  | step _ h ih => exact hstep _ _ _ ih h

/-- Every run is followed step by step, along related states. -/
theorem Reaches.simulation {R : S → A → Prop} (run : sys.Reaches trace s)
    (hinit : ∀ s, sys.init s → ∃ a, abs.init a ∧ R s a)
    (hstep : ∀ s a l s', R s a → sys.step s l s' → ∃ a', abs.step a l a' ∧ R s' a') :
    ∃ a, abs.Reaches trace a ∧ R s a := by
  induction run with
  | init h =>
      obtain ⟨a, ha, hR⟩ := hinit _ h
      exact ⟨a, .init ha, hR⟩
  | step _ h ih =>
      obtain ⟨a, ha, hR⟩ := ih
      obtain ⟨a', hstep', hR'⟩ := hstep _ _ _ _ hR h
      exact ⟨a', .step ha hstep', hR'⟩

/-- The same steps, along which a record is kept. -/
def recorded {R : Type} (sys : System S L) (start : R) (next : S → L → S → R → R) : System (S × R) L where
  init st := sys.init st.1 ∧ st.2 = start
  step st l st' := sys.step st.1 l st'.1 ∧ st'.2 = next st.1 l st'.1 st.2

/-- Every run has its record. -/
theorem Reaches.recorded {R : Type} (run : sys.Reaches trace s) (start : R) (next : S → L → S → R → R) :
    ∃ r, (sys.recorded start next).Reaches trace (s, r) := by
  obtain ⟨⟨s, r⟩, hrun, rfl⟩ : ∃ st, (sys.recorded start next).Reaches trace st ∧ st.1 = s := by
    refine run.simulation (R := fun s (st : S × R) => st.1 = s) ?_ ?_
    · exact fun s hinit => ⟨(s, start), ⟨hinit, rfl⟩, rfl⟩
    · exact fun s st l s' hst hstep => ⟨(s', next st.1 l s' st.2), ⟨hst ▸ hstep, rfl⟩, rfl⟩
  exact ⟨r, hrun⟩

/-- Several parts at once: what each part sees of the labels is a run of its own, if the steps that it does not see
    leave it alone. -/
theorem Reaches.components {ι M : Type} {P : ι → System A M} {v : ι → L → Option M} {R : ι → S → A → Prop}
    (run : sys.Reaches trace s) (hinit : ∀ s, sys.init s → ∀ i, ∃ a, (P i).init a ∧ R i s a)
    (hseen : ∀ s l s', (∀ i, ∃ a, R i s a) → sys.step s l s' → ∀ i m, v i l = some m → ∀ a, R i s a →
      ∃ a', (P i).step a m a' ∧ R i s' a')
    (hquiet : ∀ s l s', (∀ i, ∃ a, R i s a) → sys.step s l s' → ∀ i, v i l = none → ∀ a, R i s a → R i s' a)
    (i : ι) : ∃ a, (P i).Reaches (trace.filterMap (v i)) a ∧ R i s a := by
  induction run generalizing i with
  | init h =>
      obtain ⟨a, ha, hR⟩ := hinit _ h i
      exact ⟨a, .init ha, hR⟩
  | @step trace s s' l _ h ih =>
      have hall : ∀ i, ∃ a, R i s a := fun i => (ih i).imp fun _ ha => ha.2
      obtain ⟨a, ha, hR⟩ := ih i
      rw [List.filterMap_append]
      cases hview : v i l with
      | none =>
          refine ⟨a, ?_, hquiet s l s' hall h i hview a hR⟩
          rw [List.filterMap_cons_none hview, List.filterMap_nil, List.append_nil]
          exact ha
      | some m =>
          obtain ⟨a', hstep, hR'⟩ := hseen s l s' hall h i m hview a hR
          rw [List.filterMap_cons_some hview, List.filterMap_nil]
          exact ⟨a', .step ha hstep, hR'⟩

/-- `P s n` says that `n` is the potential of the state `s`. If each step costs at most `c` more than the potential
    drops, a run costs at most `c` a step. -/
theorem Reaches.amortised {log : List (S × L × S)} (cost : S → S → Nat) (P : S → Nat → Prop) (c : Nat)
    (run : sys.traced.Reaches log s) (hinit : ∀ s, sys.init s → P s 0)
    (hstep : ∀ s n l s', P s n → sys.step s l s' → ∃ n', P s' n' ∧ cost s s' + n' ≤ n + c) :
    ∃ n, P s n ∧ (log.map fun e => cost e.1 e.2.2).sum + n ≤ c * log.length := by
  induction run with
  | init h => exact ⟨0, hinit _ h, Nat.le_refl 0⟩
  | @step log s s' l _ h ih =>
      obtain ⟨hbefore, hafter, h⟩ := h
      obtain ⟨n, hP, hsum⟩ := ih
      obtain ⟨n', hP', hcost⟩ := hstep s n l.2.1 s' hP h
      refine ⟨n', hP', ?_⟩
      rw [List.map_append, List.map_singleton, List.sum_append, List.sum_singleton, List.length_append,
        List.length_singleton, Nat.mul_add, hbefore, hafter]
      omega

end System
