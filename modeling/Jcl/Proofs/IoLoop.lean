/-
Module: Jcl.Proofs.IoLoop
Layer: Proofs
Purpose: What the shared loop does under a schedule. Where an interruption resets `*err` it is the transfer of
  the library. Where it does not, `*err` stays at the interruption: a call that succeeds then moves bytes
  that are not counted, until some call fails.
Imports: Jcl.IoLoop
Trusted boundary: human-reviewed spec (LoopReturns, Exact, Delivered, Taken)
Main exports: ErrnoMap, LoopReturns, LoopReturns.unique, Exact, ioLoop_transfers, ioLoop_exact, ioLoop_returns,
  ioLoop_exact_iff
-/
import Jcl.IoLoop

namespace Jcl

open Transfer

/-- The `switch` of a wrapper tells interruptions apart, and its errors are none of those that the loops
    themselves report. -/
structure ErrnoMap (errOf : Errno → JclErr) : Prop where
  inter_iff : ∀ e, errOf e = .inter ↔ e = .eintr
  ne_ok : ∀ e, errOf e ≠ .ok
  ne_close : ∀ e, errOf e ≠ .nsConnectionClose
  ne_end : ∀ e, errOf e ≠ .fioFileEnd

section

variable {D : Type} {errOf : Errno → JclErr} {move : Nat → Nat → D → D} {resets : Bool} {endErr : Option JclErr}
  {size rounds total k m calls r : Nat} {s s' : IoState D} {e : Errno} {err : JclErr}

/-- The loop over the wrapper with this `switch`, whose calls move data with `move`. -/
abbrev loopOf (errOf : Errno → JclErr) (move : Nat → Nat → D → D) (resets : Bool) (endErr : Option JclErr)
    (size : Nat) : Nat → Nat → IoM D Nat :=
  ioLoop (fun offset n => ioCall errOf (move offset) n) resets endErr size

/-- The call returns `r` and leaves `s'`: some number of rounds suffices for its loop. -/
def LoopReturns (f : Nat → IoM D Nat) (s : IoState D) (r : Nat) (s' : IoState D) : Prop :=
  ∃ rounds, (f rounds).run s = .ok (r, s')

/-! ### One round -/

theorem run_done (h : size ≤ total) : (loopOf errOf move resets endErr size rounds total).run s = .ok (total, s) := by
  have hnot : ¬ total < size := Nat.not_lt.2 h
  cases rounds with
  | zero => simp [loopOf, ioLoop, hnot]; rfl
  | succ rounds => simp [loopOf, ioLoop, hnot]; rfl

theorem run_moved (hlt : total < size) (hhead : s.schedule.head = .moved k) (herr : s.err = .ok) :
    (loopOf errOf move resets endErr size (rounds + 1) total).run s =
      (loopOf errOf move resets endErr size rounds (total + min (k + 1) (size - total))).run
        { s with schedule := s.schedule.tail, data := move total (min (k + 1) (size - total)) s.data } := by
  have hpos : min (k + 1) (size - total) ≠ 0 := by omega
  obtain ⟨count, hcount⟩ := Nat.exists_eq_succ_of_ne_zero hpos
  cases endErr with
  | none => simp [loopOf, ioLoop, hlt, ioCall, hhead, herr, hcount]
  | some endErr => simp [loopOf, ioLoop, hlt, ioCall, hhead, herr, hcount]

/-- A call that succeeds while `*err` stays at an interruption is not counted. -/
theorem run_moved_inter (hlt : total < size) (hhead : s.schedule.head = .moved k) (herr : s.err = .inter) :
    (loopOf errOf move false endErr size (rounds + 1) total).run s =
      (loopOf errOf move false endErr size rounds total).run
        { s with schedule := s.schedule.tail, data := move total (min (k + 1) (size - total)) s.data } := by
  simp [loopOf, ioLoop, hlt, ioCall, hhead, herr]

theorem run_ended (hlt : total < size) (hhead : s.schedule.head = .ended) (herr : s.err = .ok) :
    (loopOf errOf move resets (some err) size (rounds + 1) total).run s =
      .ok (total, { s with schedule := s.schedule.tail, ended := true, err := err }) := by
  simp [loopOf, ioLoop, hlt, ioCall, hhead, herr]
  rfl

theorem run_ended_inter (hlt : total < size) (hhead : s.schedule.head = .ended) (herr : s.err = .inter) :
    (loopOf errOf move false endErr size (rounds + 1) total).run s =
      (loopOf errOf move false endErr size rounds total).run
        { s with schedule := s.schedule.tail, ended := true } := by
  simp [loopOf, ioLoop, hlt, ioCall, hhead, herr]

theorem run_interrupted (hmap : ErrnoMap errOf) (hlt : total < size)
    (hhead : s.schedule.head = .failed .eintr) :
    (loopOf errOf move resets endErr size (rounds + 1) total).run s =
      (loopOf errOf move resets endErr size rounds total).run
        { s with schedule := s.schedule.tail, err := if resets then .ok else .inter } := by
  have herr : errOf .eintr = .inter := (hmap.inter_iff .eintr).2 rfl
  cases resets with
  | false => simp [loopOf, ioLoop, hlt, ioCall, hhead, herr]
  | true => simp [loopOf, ioLoop, hlt, ioCall, hhead, herr, resErr]

theorem run_failed (hmap : ErrnoMap errOf) (hlt : total < size) (hhead : s.schedule.head = .failed e)
    (hne : e ≠ .eintr) :
    (loopOf errOf move resets endErr size (rounds + 1) total).run s =
      .ok (total, { s with schedule := s.schedule.tail, err := errOf e }) := by
  have hinter : errOf e ≠ .inter := fun herr => hne ((hmap.inter_iff e).1 herr)
  simp [loopOf, ioLoop, hlt, ioCall, hhead, hinter, hmap.ne_ok e]
  rfl

/-! ### The loop that resets `*err` -/

/-- `*err` after a transfer with this ending. -/
def endingErr (errOf : Errno → JclErr) (endErr : Option JclErr) : Ending Errno → JclErr
  | .full => .ok
  | .ended => endErr.getD .ok
  | .failed e => errOf e

/-- The data after the first `n` bytes were moved is `after n`. -/
def MovesTo (move : Nat → Nat → D → D) (after : Nat → D) (size : Nat) : Prop :=
  ∀ t n, t + n ≤ size → move t n (after t) = after (t + n)

/-- What is left of a transfer, as the loop does it. -/
theorem ioLoop_transfers {after : Nat → D} {ending : Ending Errno} (hmap : ErrnoMap errOf)
    (hmove : MovesTo move after size) (h : Transfers .eintr (size - total) s.schedule calls m ending)
    (hend : ending = .ended → endErr.isSome) (hle : total ≤ size) (hdata : s.data = after total)
    (herr : s.err = .ok) (hrounds : calls ≤ rounds) :
    Returns (loopOf errOf move true endErr size rounds total) s fun r s' => r = total + m ∧
      s'.data = after r ∧ s'.err = endingErr errOf endErr ending ∧
      s'.ended = (s.ended || decide (ending = .ended)) := by
  generalize hn : size - total = n at h
  generalize ho : s.schedule = o at h
  induction h generalizing total s rounds with
  | full => exact ⟨_, _, run_done (by omega), by omega, hdata, herr, by simp⟩
  | @moved o n k calls m ending hpos hhead rest ih =>
      obtain ⟨rounds, rfl⟩ := Nat.exists_eq_add_of_le' (Nat.le_trans (Nat.le_add_left 1 calls) hrounds)
      subst hn ho
      have hstep := hmove total (min (k + 1) (size - total)) (by omega)
      rw [← hdata] at hstep
      rw [Returns, run_moved (by omega) hhead herr]
      refine Returns.mono (ih hend (by omega) hstep herr (by omega) (by omega) rfl) fun r s' hs' => ?_
      exact ⟨by omega, hs'.2⟩
  | @interrupted o n calls m ending hpos hhead rest ih =>
      obtain ⟨rounds, rfl⟩ := Nat.exists_eq_add_of_le' (Nat.le_trans (Nat.le_add_left 1 calls) hrounds)
      subst hn ho
      rw [Returns, run_interrupted hmap (by omega) hhead]
      exact ih hend hle hdata rfl (by omega) rfl rfl
  | ended hpos hhead =>
      obtain ⟨rounds, rfl⟩ := Nat.exists_eq_add_of_le' hrounds
      obtain ⟨err, rfl⟩ := Option.isSome_iff_exists.1 (hend rfl)
      subst ho
      exact ⟨_, _, run_ended (by omega) hhead herr, rfl, hdata, rfl, by simp⟩
  | failed hpos hhead hne =>
      obtain ⟨rounds, rfl⟩ := Nat.exists_eq_add_of_le' hrounds
      subst ho
      exact ⟨_, _, run_failed hmap (by omega) hhead hne, rfl, hdata, rfl, by simp⟩

/-- A loop that returned made a transfer. -/
theorem transfers_of_run (hmap : ErrnoMap errOf) (herr : s.err = .ok)
    (hrun : (loopOf errOf move true endErr size rounds total).run s = .ok (r, s')) :
    ∃ calls m ending, calls ≤ rounds ∧ Transfers .eintr (size - total) s.schedule calls m ending := by
  by_cases hlt : total < size
  · induction rounds generalizing total s with
    | zero =>
        rw [loopOf, ioLoop, if_pos hlt] at hrun
        cases hrun
    | succ rounds ih =>
        have hpos : 0 < size - total := by omega
        cases hhead : s.schedule.head with
        | moved k =>
            rw [run_moved hlt hhead herr] at hrun
            by_cases hrest : total + min (k + 1) (size - total) < size
            · obtain ⟨calls, m, ending, hle, h⟩ :
                  ∃ calls m ending, calls ≤ rounds ∧ Transfers .eintr _ s.schedule.tail calls m ending :=
                ih (by exact herr) hrun hrest
              rw [← Nat.sub_sub] at h
              exact ⟨_, _, _, Nat.succ_le_succ hle, .moved hpos hhead h⟩
            · have hzero : size - total - min (k + 1) (size - total) = 0 := by omega
              exact ⟨1, _, _, by omega, .moved hpos hhead (by rw [hzero]; exact .full)⟩
        | ended => exact ⟨1, _, _, by omega, .ended hpos hhead⟩
        | failed e =>
            by_cases hinter : e = .eintr
            · subst hinter
              rw [run_interrupted hmap hlt hhead] at hrun
              obtain ⟨calls, m, ending, hle, h⟩ :
                  ∃ calls m ending, calls ≤ rounds ∧ Transfers .eintr _ s.schedule.tail calls m ending :=
                ih (by rfl) hrun hlt
              exact ⟨_, _, _, Nat.succ_le_succ hle, .interrupted hpos hhead h⟩
            · exact ⟨1, _, _, by omega, .failed hpos hhead hinter⟩
  · have hzero : size - total = 0 := by omega
    rw [hzero]
    exact ⟨0, 0, .full, Nat.zero_le _, .full⟩

/-- The errors that the loops report at the end of the stream. -/
def EndErr (endErr : Option JclErr) : Prop := ∀ err ∈ endErr, err = .nsConnectionClose ∨ err = .fioFileEnd

/-- What the caller learns is what happened: `r` bytes were moved, `*err` is `JCL_OK` if these were all and the
    error for the end of the stream if a call found it, and never an interruption. -/
structure Exact (after : Nat → D) (size : Nat) (endErr : Option JclErr) (r : Nat) (s' : IoState D) : Prop where
  le : r ≤ size
  data : s'.data = after r
  ok : s'.err = .ok ↔ r = size
  ended : ∀ err ∈ endErr, s'.err = err ↔ s'.ended = true
  not_inter : s'.err ≠ .inter

theorem exact_of_ending {after : Nat → D} {ending : Ending Errno} (hmap : ErrnoMap errOf) (hend : EndErr endErr)
    (h : Transfers .eintr (size - total) s.schedule calls m ending) (hsome : ending = .ended → endErr.isSome)
    (hle : total ≤ size) (hdata : s'.data = after (total + m)) (herr : s'.err = endingErr errOf endErr ending)
    (hended : s'.ended = decide (ending = .ended)) : Exact after size endErr (total + m) s' := by
  have hne := h.ne_interrupted
  have hmoved := h.le
  have hfull : total + m = size ↔ ending = .full := by
    rw [h.full_iff]
    omega
  refine ⟨by omega, hdata, ?_, ?_, ?_⟩
  · rw [herr, hfull]
    cases ending with
    | full => simp [endingErr]
    | ended =>
        obtain ⟨err, rfl⟩ := Option.isSome_iff_exists.1 (hsome rfl)
        rcases hend err rfl with rfl | rfl <;> simp [endingErr]
    | failed e => simp [endingErr, hmap.ne_ok]
  · intro err hin
    obtain rfl : endErr = some err := hin
    rw [herr, hended]
    cases ending with
    | full => rcases hend err rfl with rfl | rfl <;> simp [endingErr]
    | ended => simp [endingErr]
    | failed e => rcases hend err rfl with rfl | rfl <;> simp [endingErr, hmap.ne_close, hmap.ne_end]
  · rw [herr]
    cases ending with
    | full => simp [endingErr]
    | ended =>
        obtain ⟨err, rfl⟩ := Option.isSome_iff_exists.1 (hsome rfl)
        rcases hend err rfl with rfl | rfl <;> simp [endingErr]
    | failed e => exact fun hinter => hne (by rw [(hmap.inter_iff e).1 hinter])

/-- The end of the stream is reported where it can be found. -/
theorem isSome_of_ended {ending : Ending Errno} {n : Nat} (hendless : endErr = none → Endless s.schedule)
    (h : Transfers .eintr n s.schedule calls m ending) : ending = .ended → endErr.isSome := by
  intro hended
  cases endErr with
  | none => exact absurd hended ((hendless rfl).ne_ended h)
  | some err => rfl

/-- Every call that returns is exact. -/
theorem ioLoop_exact {after : Nat → D} (hmap : ErrnoMap errOf) (hend : EndErr endErr)
    (hendless : endErr = none → Endless s.schedule) (hmove : MovesTo move after size)
    (hdata : s.data = after 0) (herr : s.err = .ok) (hended : s.ended = false)
    (hrun : LoopReturns (loopOf errOf move true endErr size · 0) s r s') : Exact after size endErr r s' := by
  obtain ⟨rounds, hrun⟩ := hrun
  obtain ⟨calls, m, ending, hrounds, h⟩ := transfers_of_run hmap herr hrun
  have hsome := isSome_of_ended hendless h
  obtain ⟨hr, hdata', herr', hended'⟩ :=
    (ioLoop_transfers hmap hmove h hsome (Nat.zero_le _) hdata herr hrounds).det hrun
  subst hr
  rw [hended, Bool.false_or] at hended'
  exact exact_of_ending hmap hend h hsome (Nat.zero_le _) hdata' herr' hended'

/-- If there are finitely many interruptions the call returns. -/
theorem ioLoop_returns {after : Nat → D} (hmap : ErrnoMap errOf) (hmove : MovesTo move after size)
    (hendless : endErr = none → Endless s.schedule) (hfinite : FinitelyInterrupted .eintr s.schedule)
    (hdata : s.data = after 0) (herr : s.err = .ok) :
    ∃ r s', LoopReturns (loopOf errOf move true endErr size · 0) s r s' := by
  obtain ⟨calls, m, ending, h⟩ := exists_transfers hfinite size
  have hsome := isSome_of_ended hendless h
  rw [← Nat.sub_zero size] at h
  obtain ⟨r, s', hrun, -⟩ : Returns (loopOf errOf move true endErr size calls 0) s _ :=
    ioLoop_transfers hmap hmove h hsome (Nat.zero_le _) hdata herr (Nat.le_refl calls)
  exact ⟨r, s', calls, hrun⟩

/-! ### The loop that leaves `*err` -/

/-- `weight` counts the bytes that were moved. -/
def Weighs (move : Nat → Nat → D → D) (weight : D → Nat) (size : Nat) : Prop :=
  ∀ t n d, t + n ≤ size → weight (move t n d) = weight d + n

/-- With `*err` at an interruption the loop goes on until a call fails, and counts nothing. -/
theorem run_stuck {weight : D → Nat} (hmap : ErrnoMap errOf) (hweight : Weighs move weight size)
    (hlt : total < size) (herr : s.err = .inter)
    (hrun : (loopOf errOf move false endErr size rounds total).run s = .ok (r, s')) :
    r = total ∧ weight s.data ≤ weight s'.data ∧ (s.ended = true → s'.ended = true) ∧
      ∃ e, e ≠ .eintr ∧ s'.err = errOf e := by
  induction rounds generalizing s with
  | zero =>
      rw [loopOf, ioLoop, if_pos hlt] at hrun
      cases hrun
  | succ rounds ih =>
      cases hhead : s.schedule.head with
      | moved k =>
          rw [run_moved_inter hlt hhead herr] at hrun
          obtain ⟨hr, (hle : weight (move _ _ s.data) ≤ _), hended, hfailed⟩ := ih (by exact herr) hrun
          have hmoved := hweight total (min (k + 1) (size - total)) s.data (by omega)
          exact ⟨hr, by omega, hended, hfailed⟩
      | ended =>
          rw [run_ended_inter hlt hhead herr] at hrun
          obtain ⟨hr, hle, hended, hfailed⟩ := ih (by exact herr) hrun
          exact ⟨hr, hle, fun _ => hended rfl, hfailed⟩
      | failed e =>
          by_cases hinter : e = .eintr
          · subst hinter
            rw [run_interrupted hmap hlt hhead] at hrun
            have hstuck := ih (by rfl) hrun
            exact hstuck
          · rw [run_failed hmap hlt hhead hinter] at hrun
            cases hrun
            exact ⟨rfl, Nat.le_refl _, id, e, hinter, rfl⟩

/-- If the next call that is not interrupted succeeds, bytes are moved that are not counted, or the end of the
    stream is found and not reported. -/
theorem run_stuck_succeeds {weight : D → Nat} (hmap : ErrnoMap errOf) (hweight : Weighs move weight size)
    (hlt : total < size) (herr : s.err = .inter) (hnext : NextSucceeds .eintr s.schedule)
    (hrun : (loopOf errOf move false endErr size rounds total).run s = .ok (r, s')) :
    weight s.data < weight s'.data ∨ (s'.ended = true ∧ ¬ Endless s.schedule) := by
  generalize ho : s.schedule = o at hnext
  induction hnext generalizing s rounds with
  | @moved o k hhead =>
      subst ho
      cases rounds with
      | zero =>
          rw [loopOf, ioLoop, if_pos hlt] at hrun
          cases hrun
      | succ rounds =>
          rw [run_moved_inter hlt hhead herr] at hrun
          obtain ⟨-, (hle : weight (move _ _ s.data) ≤ _), -, -⟩ := run_stuck hmap hweight hlt (by exact herr) hrun
          have hmoved := hweight total (min (k + 1) (size - total)) s.data (by omega)
          exact Or.inl (by omega)
  | ended hhead =>
      subst ho
      cases rounds with
      | zero =>
          rw [loopOf, ioLoop, if_pos hlt] at hrun
          cases hrun
      | succ rounds =>
          rw [run_ended_inter hlt hhead herr] at hrun
          obtain ⟨-, -, hended, -⟩ := run_stuck hmap hweight hlt (by exact herr) hrun
          exact Or.inr ⟨hended rfl, fun hendless => hendless 0 hhead⟩
  | interrupted hhead next ih =>
      subst ho
      cases rounds with
      | zero =>
          rw [loopOf, ioLoop, if_pos hlt] at hrun
          cases hrun
      | succ rounds =>
          rw [run_interrupted hmap hlt hhead] at hrun
          have hmoved := ih (by rfl) hrun rfl
          exact hmoved.imp id fun hended => ⟨hended.1, fun hendless => hended.2 hendless.tail⟩

/-- If it fails, the loop returns, with that error. -/
theorem run_stuck_fails (hmap : ErrnoMap errOf) (hlt : total < size) (herr : s.err = .inter)
    (hnext : NextFails .eintr s.schedule) :
    ∃ rounds s' e, (loopOf errOf move false endErr size rounds total).run s = .ok (total, s') ∧
      s'.data = s.data ∧ s'.ended = s.ended ∧ e ≠ .eintr ∧ s'.err = errOf e := by
  generalize ho : s.schedule = o at hnext
  induction hnext generalizing s with
  | @failed o e hhead hne =>
      subst ho
      exact ⟨1, _, e, run_failed hmap hlt hhead hne, rfl, rfl, hne, rfl⟩
  | interrupted hhead next ih =>
      subst ho
      obtain ⟨rounds, s', e, hrun, hdata, hended, hne, hfailed⟩ :=
        ih (s := { s with schedule := s.schedule.tail, err := .inter }) rfl rfl
      refine ⟨rounds + 1, s', e, ?_, hdata, hended, hne, hfailed⟩
      rw [run_interrupted hmap hlt hhead]
      exact hrun

/-- A round that goes on changes nothing about where the loop ends. -/
theorem exists_return_iff {total' : Nat} {s₁ : IoState D} {P : Nat → IoState D → Prop} (hlt : total < size)
    (hstep : ∀ rounds, (loopOf errOf move resets endErr size (rounds + 1) total).run s =
      (loopOf errOf move resets endErr size rounds total').run s₁) :
    (∃ r s', LoopReturns (loopOf errOf move resets endErr size · total) s r s' ∧ P r s') ↔
      ∃ r s', LoopReturns (loopOf errOf move resets endErr size · total') s₁ r s' ∧ P r s' := by
  constructor
  · rintro ⟨r, s', ⟨rounds, hrun⟩, hP⟩
    cases rounds with
    | zero =>
        simp only [loopOf, ioLoop, if_pos hlt] at hrun
        cases hrun
    | succ rounds => exact ⟨r, s', ⟨rounds, (hstep rounds).symm.trans hrun⟩, hP⟩
  · rintro ⟨r, s', ⟨rounds, hrun⟩, hP⟩
    rw [← hstep] at hrun
    exact ⟨r, s', ⟨rounds + 1, hrun⟩, hP⟩

/-- After an interruption, the loop returns with the truth exactly if the next call that is not interrupted
    fails. -/
theorem stuck_exact_iff {after : Nat → D} {weight : D → Nat} (hmap : ErrnoMap errOf) (hend : EndErr endErr)
    (hweight : Weighs move weight size) (hendless : endErr = none → Endless s.schedule)
    (hfinite : FinitelyInterrupted .eintr s.schedule) (hlt : total < size) (hdata : s.data = after total)
    (herr : s.err = .inter) (hended : s.ended = false) :
    (∃ r s', LoopReturns (loopOf errOf move false endErr size · total) s r s' ∧ Exact after size endErr r s') ↔
      ¬ NextSucceeds .eintr s.schedule := by
  constructor
  · rintro ⟨r, s', ⟨rounds, hrun⟩, hexact⟩ hnext
    obtain ⟨rfl, -, -, e, -, hfailed⟩ := run_stuck hmap hweight hlt herr hrun
    rcases run_stuck_succeeds hmap hweight hlt herr hnext hrun with hmoved | ⟨hfound, hnot⟩
    · rw [hexact.data, ← hdata] at hmoved
      exact absurd hmoved (Nat.lt_irrefl _)
    · cases endErr with
      | none => exact hnot (hendless rfl)
      | some err =>
          have hreported := (hexact.ended err rfl).2 hfound
          rw [hfailed] at hreported
          rcases hend err rfl with rfl | rfl
          · exact hmap.ne_close e hreported
          · exact hmap.ne_end e hreported
  · intro hnext
    obtain ⟨rounds, s', e, hrun, hdata', hended', hne, hfailed⟩ :=
      run_stuck_fails hmap hlt herr ((next_cases hfinite).resolve_left hnext)
    refine ⟨total, s', ⟨rounds, hrun⟩, Nat.le_of_lt hlt, by rw [hdata', hdata], ?_, ?_, ?_⟩
    · rw [hfailed]
      exact ⟨fun hok => absurd hok (hmap.ne_ok e), fun heq => absurd heq (Nat.ne_of_lt hlt)⟩
    · intro err hin
      rw [hfailed, hended', hended]
      rcases hend err hin with rfl | rfl
      · simp [hmap.ne_close]
      · simp [hmap.ne_end]
    · rw [hfailed]
      exact fun hinter => hne ((hmap.inter_iff e).1 hinter)

/-- The loop returns with the truth exactly if no call succeeds right after an interruption that it meets. -/
theorem ioLoop_exact_iff {after : Nat → D} {weight : D → Nat} (hmap : ErrnoMap errOf) (hend : EndErr endErr)
    (hmove : MovesTo move after size) (hweight : Weighs move weight size)
    (hendless : endErr = none → Endless s.schedule) (hfinite : FinitelyInterrupted .eintr s.schedule)
    (hle : total ≤ size) (hdata : s.data = after total) (herr : s.err = .ok) (hended : s.ended = false) :
    (∃ r s', LoopReturns (loopOf errOf move false endErr size · total) s r s' ∧ Exact after size endErr r s') ↔
      ¬ SucceedsInterrupted .eintr (size - total) s.schedule := by
  generalize hn : size - total = n
  induction n using Nat.strong_induction_on generalizing total s with
  | _ n ih =>
      subst hn
      rcases Nat.lt_or_eq_of_le hle with hlt | rfl
      · have hpos : 0 < size - total := Nat.sub_pos_of_lt hlt
        cases hhead : s.schedule.head with
        | moved k =>
            have hstep := hmove total (min (k + 1) (size - total)) (by omega)
            rw [← hdata] at hstep
            rw [succeedsInterrupted_moved hhead, Nat.sub_sub]
            refine (exists_return_iff hlt fun rounds => run_moved hlt hhead herr).trans ?_
            exact ih _ (by omega) (fun hnone => (hendless hnone).tail) hfinite.tail (by omega) hstep herr hended rfl
        | ended =>
            refine iff_of_true ?_ (not_succeedsInterrupted_ended hhead)
            cases endErr with
            | none => exact absurd hhead (hendless rfl 0)
            | some err =>
                exact ⟨_, _, ⟨1, run_ended hlt hhead herr⟩,
                  exact_of_ending hmap hend (.ended hpos hhead) (fun _ => rfl) hle hdata rfl rfl⟩
        | failed e =>
            by_cases hinter : e = .eintr
            · subst hinter
              rw [succeedsInterrupted_interrupted hpos hhead]
              refine (exists_return_iff hlt fun rounds => run_interrupted hmap hlt hhead).trans ?_
              exact stuck_exact_iff hmap hend hweight (fun hnone => (hendless hnone).tail) hfinite.tail hlt hdata rfl
                hended
            · refine iff_of_true ?_ (not_succeedsInterrupted_failed hhead hinter)
              exact ⟨_, _, ⟨1, run_failed hmap hlt hhead hinter⟩, exact_of_ending hmap hend
                (.failed hpos hhead hinter) (fun h => (nomatch h)) hle hdata rfl hended⟩
      · refine iff_of_true ?_ fun h => absurd h.pos (by omega)
        have hfull : Transfers .eintr (total - total) s.schedule 0 0 .full := by
          rw [Nat.sub_self]
          exact .full
        exact ⟨_, _, ⟨0, run_done (Nat.le_refl _)⟩,
          exact_of_ending hmap hend hfull (fun h => (nomatch h)) hle hdata herr hended⟩

/-! ### Calls that return -/

/-- More rounds make no difference to a loop that has returned. -/
theorem returns_ioLoop_mono {call : Nat → Nat → IoM D Nat} {rounds' : Nat} {Q : Nat → IoState D → Prop}
    (h : Returns (ioLoop call resets endErr size rounds total) s Q) (hle : rounds ≤ rounds') :
    Returns (ioLoop call resets endErr size rounds' total) s Q := by
  induction rounds generalizing rounds' total s with
  | zero =>
      simp only [ioLoop, returns_bind, returns_ite, returns_throw, returns_pure, imp_false] at h
      cases rounds' with
      | zero => simpa [ioLoop, returns_ite] using h
      | succ rounds' =>
          rw [ioLoop, if_neg h.1, returns_pure]
          exact h.2 h.1
  | succ rounds ih =>
      obtain ⟨rounds', rfl⟩ := Nat.exists_eq_add_of_le' (Nat.le_trans (Nat.le_add_left 1 rounds) hle)
      have hle' := Nat.le_of_succ_le_succ hle
      simp only [ioLoop, returns_bind, returns_ite, returns_get, returns_pure] at h ⊢
      refine ⟨fun hlt => (h.1 hlt).mono fun count s₁ hs₁ => ⟨fun hinter => ?_, fun hnot => ⟨(hs₁.2 hnot).1, ?_⟩⟩, h.2⟩
      · obtain ⟨hreset, hkeep⟩ := hs₁.1 hinter
        exact ⟨fun hyes => (hreset hyes).mono fun _ s₂ hs₂ => ih hs₂ hle', fun hno => ih (hkeep hno) hle'⟩
      · intro hok
        have hrest := (hs₁.2 hnot).2 hok
        cases endErr with
        | none => exact ih hrest hle'
        | some err =>
            cases count with
            | zero => exact hrest
            | succ count => exact ih hrest hle'

/-- A call returns at most once. -/
theorem LoopReturns.unique {call : Nat → Nat → IoM D Nat} {r' : Nat} {s'' : IoState D}
    (h : LoopReturns (ioLoop call resets endErr size · total) s r s')
    (h' : LoopReturns (ioLoop call resets endErr size · total) s r' s'') : r = r' ∧ s' = s'' := by
  obtain ⟨rounds, hrun⟩ := h
  obtain ⟨rounds', hrun'⟩ := h'
  have hret : Returns (ioLoop call resets endErr size (max rounds rounds') total) s
      fun n s₁ => n = r ∧ s₁ = s' :=
    returns_ioLoop_mono ⟨r, s', hrun, rfl, rfl⟩ (Nat.le_max_left _ _)
  have hret' : Returns (ioLoop call resets endErr size (max rounds rounds') total) s
      fun n s₁ => n = r' ∧ s₁ = s'' :=
    returns_ioLoop_mono ⟨r', s'', hrun', rfl, rfl⟩ (Nat.le_max_right _ _)
  obtain ⟨n, s₁, -, ⟨rfl, rfl⟩, hr, hs⟩ := hret.and hret'
  exact ⟨hr, hs⟩

end

/-! ### Buffers -/

section

variable {buf : List UInt8} {start : Output} {input : Input} {size r : Nat} {endErr : Option JclErr}

/-- The first `n` bytes of `buf` were handed over, after what there was. -/
def Output.after (buf : List UInt8) (start : Output) (n : Nat) : Output := start ++ buf.take n

/-- The next `n` bytes of the stream were taken out and stored at the front of the buffer. -/
def Input.after (input : Input) (n : Nat) : Input :=
  { input with
    consumed := input.consumed + n
    buf := (input.stream.drop input.consumed).take n ++ input.buf.drop n }

theorem Output.movesTo : MovesTo (Output.give buf) (Output.after buf start) size := fun t n _ => by
  rw [Output.give, Output.after, Output.after, List.append_assoc, ← List.take_add]

theorem Input.movesTo : MovesTo Input.take input.after size := fun t n _ => by
  have hlen : ((input.stream.drop input.consumed).take t).length = t := Stream'.length_take _ _
  have hfront : ((input.stream.drop input.consumed).take t ++ input.buf.drop t).take t =
      (input.stream.drop input.consumed).take t := by
    rw [List.take_append_of_le_length (Nat.le_of_eq hlen.symm),
      List.take_of_length_le (Nat.le_of_eq hlen)]
  have hback : ((input.stream.drop input.consumed).take t ++ input.buf.drop t).drop (t + n) =
      input.buf.drop (t + n) := by
    rw [← List.drop_drop, List.drop_left' hlen, List.drop_drop]
  simp only [Input.take, Input.after, hfront, hback]
  rw [Stream'.take_add, Stream'.drop_drop, Nat.add_assoc]

theorem Output.weighs (hbuf : size ≤ buf.length) : Weighs (Output.give buf) List.length size := fun t n out hle => by
  rw [Output.give, List.length_append, List.length_take, List.length_drop]
  omega

theorem Input.weighs : Weighs Input.take Input.consumed size := fun _ _ _ _ => rfl

/-- The first `r` bytes of `buf` were handed over once each, and `*err` says whether that was all. -/
structure Delivered (buf : List UInt8) (size r : Nat) (s' : IoState Output) : Prop where
  le : r ≤ size
  bytes : s'.data = buf.take r
  ok : s'.err = .ok ↔ r = size
  not_inter : s'.err ≠ .inter

/-- The next `r` bytes of the stream, and no others, were taken out; they are at the front of the buffer, whose
    other bytes are what they were; and `*err` says whether that was all or the end of the stream. -/
structure Taken (input : Input) (size : Nat) (endErr : JclErr) (r : Nat) (s' : IoState Input) : Prop where
  le : r ≤ size
  bytes : s'.data = { input with
    consumed := input.consumed + r
    buf := (input.stream.drop input.consumed).take r ++ input.buf.drop r }
  ok : s'.err = .ok ↔ r = size
  ended : s'.err = endErr ↔ s'.ended = true
  not_inter : s'.err ≠ .inter

theorem exact_output_iff {s' : IoState Output} :
    Exact (Output.after buf []) size none r s' ↔ Delivered buf size r s' :=
  ⟨fun h => ⟨h.le, h.data, h.ok, h.not_inter⟩, fun h => ⟨h.le, h.bytes, h.ok, fun _ hin => (nomatch hin), h.not_inter⟩⟩

theorem exact_input_iff {s' : IoState Input} {err : JclErr} :
    Exact input.after size (some err) r s' ↔ Taken input size err r s' := by
  refine ⟨fun h => ⟨h.le, h.data, h.ok, h.ended err rfl, h.not_inter⟩,
    fun h => ⟨h.le, h.bytes, h.ok, fun err' hin => ?_, h.not_inter⟩⟩
  cases hin
  exact h.ended

end

end Jcl
