/-
Module: Jcl.Lib.Transfer
Layer: Library
Purpose: Moving a number of bytes with calls that may move fewer than they are asked for, may be interrupted
  and may fail. A schedule says what each coming call does. `Transfers` is the transfer that tries again after
  an interruption; it exists whenever the interruptions come to an end.
  `SucceedsInterrupted` picks out the schedules in which a call succeeds right after an interruption that
  the transfer meets.
Trusted boundary: none (fully proved)
Main exports: Outcome, Schedule, Ending, Transfers, Transfers.le, Transfers.full_iff, exists_transfers,
  NextSucceeds, NextFails, next_cases, SucceedsInterrupted
-/
import Mathlib.Data.Stream.Init

/-- What one call does: it moves `n + 1` bytes, or as many as it is asked for where these are fewer, it finds
    the end of the stream, or it fails. -/
inductive Outcome (E : Type) where
  | moved (n : Nat)
  | ended
  | failed (e : E)
deriving DecidableEq, Repr

/-- What the coming calls do. -/
abbrev Schedule (E : Type) := Stream' (Outcome E)

/-- How a transfer ends: with everything moved, at the end of the stream, or with an error. -/
inductive Ending (E : Type) where
  | full
  | ended
  | failed (e : E)
deriving DecidableEq, Repr

namespace Transfer

variable {E : Type} {i e : E} {n m calls k : Nat} {o : Schedule E} {ending : Ending E}

/-- A transfer of `n` bytes with the error `i` for interruptions: after so many calls it has moved `m`
    bytes. -/
inductive Transfers (i : E) : Nat → Schedule E → Nat → Nat → Ending E → Prop where
  | full {o : Schedule E} : Transfers i 0 o 0 0 .full
  | moved {o : Schedule E} {n k calls m : Nat} {ending : Ending E} (hn : 0 < n) (h : o.head = .moved k)
      (rest : Transfers i (n - min (k + 1) n) o.tail calls m ending) :
      Transfers i n o (calls + 1) (min (k + 1) n + m) ending
  | interrupted {o : Schedule E} {n calls m : Nat} {ending : Ending E} (hn : 0 < n) (h : o.head = .failed i)
      (rest : Transfers i n o.tail calls m ending) : Transfers i n o (calls + 1) m ending
  | ended {o : Schedule E} {n : Nat} (hn : 0 < n) (h : o.head = .ended) : Transfers i n o 1 0 .ended
  | failed {o : Schedule E} {n : Nat} {e : E} (hn : 0 < n) (h : o.head = .failed e) (hne : e ≠ i) :
      Transfers i n o 1 0 (.failed e)

theorem Transfers.le (h : Transfers i n o calls m ending) : m ≤ n := by
  induction h with
  | full => exact Nat.le_refl 0
  | moved => omega
  | interrupted _ _ _ ih => exact ih
  | ended => exact Nat.zero_le _
  | failed => exact Nat.zero_le _

theorem Transfers.full_iff (h : Transfers i n o calls m ending) : ending = .full ↔ m = n := by
  induction h with
  | full => simp
  | moved hn _ rest ih =>
      have := rest.le
      rw [ih]
      omega
  | interrupted _ _ _ ih => exact ih
  | ended hn => exact ⟨fun hend => (nomatch hend), fun hzero => absurd hzero (Nat.ne_of_lt hn)⟩
  | failed hn => exact ⟨fun hend => (nomatch hend), fun hzero => absurd hzero (Nat.ne_of_lt hn)⟩

theorem Transfers.ne_interrupted (h : Transfers i n o calls m ending) : ending ≠ .failed i := by
  induction h with
  | failed _ _ hne => exact fun heq => hne (Ending.failed.inj heq)
  | full | ended => exact fun heq => nomatch heq
  | moved _ _ _ ih | interrupted _ _ _ ih => exact ih

/-- A schedule in which no call finds the end of the stream. -/
def Endless (o : Schedule E) : Prop := ∀ j, o.get j ≠ .ended

theorem Endless.tail (h : Endless o) : Endless o.tail := fun j => h (j + 1)

theorem Endless.ne_ended (hendless : Endless o) (h : Transfers i n o calls m ending) : ending ≠ .ended := by
  induction h with
  | ended _ h => exact absurd h (hendless 0)
  | full | failed => exact fun heq => nomatch heq
  | moved _ _ _ ih | interrupted _ _ _ ih => exact ih hendless.tail

/-! ### Interruptions that come to an end -/

/-- From call `k` on there are no interruptions. -/
def QuietFrom (i : E) (k : Nat) (o : Schedule E) : Prop := ∀ j, k ≤ j → o.get j ≠ .failed i

theorem QuietFrom.tail (h : QuietFrom i k o) : QuietFrom i (k - 1) o.tail := fun j hj => h (j + 1) (by omega)

theorem QuietFrom.pos (h : QuietFrom i k o) (hhead : o.head = .failed i) : 0 < k := by
  rcases Nat.eq_zero_or_pos k with rfl | hpos
  · exact absurd hhead (h 0 (Nat.le_refl 0))
  · exact hpos

/-- There are only finitely many interruptions. -/
def FinitelyInterrupted (i : E) (o : Schedule E) : Prop := ∃ k, QuietFrom i k o

theorem FinitelyInterrupted.tail (h : FinitelyInterrupted i o) : FinitelyInterrupted i o.tail := by
  obtain ⟨k, hquiet⟩ := h
  exact ⟨k - 1, hquiet.tail⟩

/-- A transfer comes to an end if the interruptions do. -/
theorem exists_transfers (h : FinitelyInterrupted i o) (n : Nat) :
    ∃ calls m ending, Transfers i n o calls m ending := by
  classical
  obtain ⟨k, hquiet⟩ := h
  -- A call that moves bytes leaves fewer of them, and an interruption leaves fewer interruptions.
  generalize hsize : n + k = size
  induction size using Nat.strong_induction_on generalizing n k o with
  | _ size ih =>
      subst hsize
      rcases Nat.eq_zero_or_pos n with rfl | hn
      · exact ⟨_, _, _, .full⟩
      · cases hhead : o.head with
        | moved j =>
            obtain ⟨calls, m, ending, rest⟩ := ih _ (by omega) (n - min (j + 1) n) (k - 1) hquiet.tail rfl
            exact ⟨_, _, _, .moved hn hhead rest⟩
        | ended => exact ⟨_, _, _, .ended hn hhead⟩
        | failed e =>
            by_cases hi : e = i
            · subst hi
              have hpos := hquiet.pos hhead
              obtain ⟨calls, m, ending, rest⟩ := ih _ (by omega) n (k - 1) hquiet.tail rfl
              exact ⟨_, _, _, .interrupted hn hhead rest⟩
            · exact ⟨_, _, _, .failed hn hhead hi⟩

/-! ### Calls after an interruption -/

/-- The first call that is not interrupted does not fail. -/
inductive NextSucceeds (i : E) : Schedule E → Prop where
  | moved {o : Schedule E} {n : Nat} (h : o.head = .moved n) : NextSucceeds i o
  | ended {o : Schedule E} (h : o.head = .ended) : NextSucceeds i o
  | interrupted {o : Schedule E} (h : o.head = .failed i) (rest : NextSucceeds i o.tail) : NextSucceeds i o

/-- The first call that is not interrupted fails. -/
inductive NextFails (i : E) : Schedule E → Prop where
  | failed {o : Schedule E} {e : E} (h : o.head = .failed e) (hne : e ≠ i) : NextFails i o
  | interrupted {o : Schedule E} (h : o.head = .failed i) (rest : NextFails i o.tail) : NextFails i o

theorem next_cases (h : FinitelyInterrupted i o) : NextSucceeds i o ∨ NextFails i o := by
  classical
  obtain ⟨k, hquiet⟩ := h
  induction k generalizing o with
  | zero =>
      cases hhead : o.head with
      | moved n => exact Or.inl (.moved hhead)
      | ended => exact Or.inl (.ended hhead)
      | failed e =>
          exact Or.inr (.failed hhead fun heq => hquiet 0 (Nat.le_refl 0) (hhead.trans (by rw [heq])))
  | succ k ih =>
      cases hhead : o.head with
      | moved n => exact Or.inl (.moved hhead)
      | ended => exact Or.inl (.ended hhead)
      | failed e =>
          by_cases hi : e = i
          · subst hi
            exact (ih hquiet.tail).imp (.interrupted hhead) (.interrupted hhead)
          · exact Or.inr (.failed hhead hi)

/-- A transfer of `n` bytes is interrupted before they are all moved, and the next call that is not
    interrupted does not fail. -/
inductive SucceedsInterrupted (i : E) : Nat → Schedule E → Prop where
  | interrupted {o : Schedule E} {n : Nat} (hn : 0 < n) (h : o.head = .failed i) (next : NextSucceeds i o.tail) :
      SucceedsInterrupted i n o
  | moved {o : Schedule E} {n k : Nat} (h : o.head = .moved k) (hk : k + 1 < n)
      (rest : SucceedsInterrupted i (n - (k + 1)) o.tail) : SucceedsInterrupted i n o

theorem SucceedsInterrupted.pos (h : SucceedsInterrupted i n o) : 0 < n := by
  cases h with
  | interrupted hn => exact hn
  | moved _ hk => omega

theorem succeedsInterrupted_moved (h : o.head = .moved k) :
    SucceedsInterrupted i n o ↔ SucceedsInterrupted i (n - min (k + 1) n) o.tail := by
  constructor
  · intro hs
    cases hs with
    | interrupted _ hinter => simp [h] at hinter
    | moved hmoved hk rest =>
        rw [h] at hmoved
        cases hmoved
        rwa [Nat.min_eq_left (Nat.le_of_lt hk)]
  · intro hs
    have hk : k + 1 < n := by
      have := hs.pos
      omega
    rw [Nat.min_eq_left (Nat.le_of_lt hk)] at hs
    exact .moved h hk hs

theorem succeedsInterrupted_interrupted (hn : 0 < n) (h : o.head = .failed i) :
    SucceedsInterrupted i n o ↔ NextSucceeds i o.tail := by
  constructor
  · intro hs
    cases hs with
    | interrupted _ _ next => exact next
    | moved hmoved => simp [h] at hmoved
  · exact .interrupted hn h

theorem not_succeedsInterrupted_ended (h : o.head = .ended) : ¬ SucceedsInterrupted i n o := by
  intro hs
  cases hs with
  | interrupted _ hinter => simp [h] at hinter
  | moved hmoved => simp [h] at hmoved

theorem not_succeedsInterrupted_failed (h : o.head = .failed e) (hne : e ≠ i) : ¬ SucceedsInterrupted i n o := by
  intro hs
  cases hs with
  | interrupted _ hinter =>
      rw [h] at hinter
      exact hne (Outcome.failed.inj hinter)
  | moved hmoved => simp [h] at hmoved

end Transfer
