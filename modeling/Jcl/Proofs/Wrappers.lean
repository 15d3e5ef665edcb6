/-
Module: Jcl.Proofs.Wrappers
Layer: Proofs
Purpose: Where the `*err` that a wrapper reports comes from. A system call that fails stores its own error number
  before the wrapper looks at `errno`, so what an earlier call left there is gone. A `pthread_*` call does not,
  and the four wrappers that look at `errno` after one report what an earlier call left.
Imports: Jcl.Wrappers
Trusted boundary: none (fully proved)
Main exports: errAfter, OwnOutcome, readsStaleErrno, errAfter_sysCall, errAfter_pthreadCall, ownOutcome_iff
-/
import Jcl.Wrappers

namespace Jcl.Wrappers

variable {α : Type}

/-- The `*err` that a call leaves. -/
def errAfter (call : ErrM α) (errno : Errno) (err : JclErr) : JclErr := (call.run ⟨errno, err⟩).2.err

theorem errAfter_discard (call : ErrM α) (errno : Errno) (err : JclErr) :
    errAfter (discard call) errno err = errAfter call errno err := rfl

/-- A wrapped system call reports its own error number, or nothing. -/
theorem errAfter_sysCall (switch : Errno → JclErr) (failValue : α) (outcome : Except Errno α) (errno : Errno)
    (err : JclErr) : errAfter (onErrno switch failValue (sysCall outcome)) errno err =
      match outcome with
      | .ok _ => err
      | .error own => switch own := by
  cases outcome with
  | ok value => rfl
  | error own => rfl

theorem independent_sysCall (switch : Errno → JclErr) (failValue : α) (outcome : Except Errno α)
    (errno errno' : Errno) (err : JclErr) :
    errAfter (onErrno switch failValue (sysCall outcome)) errno err =
      errAfter (onErrno switch failValue (sysCall outcome)) errno' err := by
  rw [errAfter_sysCall, errAfter_sysCall]

/-- A wrapped `pthread_*` call that fails reports the `errno` that it found. -/
theorem errAfter_pthreadCall (switch : Errno → JclErr) (status : Option Errno) (errno : Errno) (err : JclErr) :
    errAfter (onErrno switch () (pthreadCall status)) errno err =
      match status with
      | none => err
      | some _ => switch errno := by
  cases status with
  | none => rfl
  | some number => rfl

/-- The `pthread_*` calls with an error of their own: what the call returned, the error number, and the error. -/
def WrapperCall.special : WrapperCall → Option (Option Errno × Errno × JclErr)
  | .mutexDestroy status => some (status, .ebusy, .mutexBusy)
  | .mutexTrylock status => some (status, .ebusy, .mutexBusy)
  | .condDestroy status => some (status, .ebusy, .condBusy)
  | .condTimedwait status => some (status, .etimedout, .condTimedOut)
  | _ => none

/-- The wrapper reports the outcome of its own call: the same whatever `errno` was before, and the special error
    of a `pthread_*` call exactly when the call returned its number. -/
structure OwnOutcome (call : WrapperCall) : Prop where
  independent : ∀ (errno errno' : Errno) (err : JclErr),
    errAfter call.run errno err = errAfter call.run errno' err
  special : ∀ (status : Option Errno) (number : Errno) (own : JclErr),
    call.special = some (status, number, own) → ∀ errno : Errno,
      (errAfter call.run errno .ok = own ↔ status = some number)

/-- The wrapper looks at `errno` after a `pthread_*` call that returned an error number. -/
def WrapperCall.readsStaleErrno (call : WrapperCall) : Bool :=
  match call.special with
  | some (some _, _, _) => true
  | _ => false

/-- The special error of a `pthread_*` call is not one of the others that its wrapper reports. -/
theorem WrapperCall.special_ne {call : WrapperCall} {status : Option Errno} {number : Errno} {own : JclErr}
    (h : call.special = some (status, number, own)) : own ≠ .ok ∧ own ≠ .sys := by
  cases call <;> simp only [WrapperCall.special, reduceCtorEq, Option.some.injEq, Prod.mk.injEq] at h
  all_goals
    obtain ⟨-, -, rfl⟩ := h
    exact ⟨nofun, nofun⟩

/-- The wrappers of `pthread_*` calls with an error of their own. -/
theorem WrapperCall.run_special {call : WrapperCall} {status : Option Errno} {number : Errno} {own : JclErr}
    (h : call.special = some (status, number, own)) :
    call.run = onErrno (caseErr number own) () (pthreadCall status) := by
  cases call <;> simp only [WrapperCall.special, reduceCtorEq, Option.some.injEq, Prod.mk.injEq] at h
  all_goals
    obtain ⟨rfl, rfl, rfl⟩ := h
    rfl

/-- A wrapper that looks at the `errno` of an earlier call reports two different errors. -/
theorem not_independent {call : WrapperCall} {status : Option Errno} {number returned : Errno} {own : JclErr}
    (h : call.special = some (status, number, own)) (hstatus : status = some returned) :
    errAfter call.run number .ok = own ∧ ∀ errno ≠ number, errAfter call.run errno .ok = .sys := by
  subst hstatus
  rw [WrapperCall.run_special h]
  constructor
  · rw [errAfter_pthreadCall]
    exact if_pos rfl
  · intro errno hne
    rw [errAfter_pthreadCall]
    exact if_neg hne

/-- The other wrappers report the same error whatever `errno` was before. -/
theorem independent_of_not_special {call : WrapperCall} (h : call.special = none)
    (errno errno' : Errno) (err : JclErr) : errAfter call.run errno err = errAfter call.run errno' err := by
  cases call with
  | mutexDestroy | mutexTrylock | condDestroy | condTimedwait => exact absurd h nofun
  | getaddrinfo outcome =>
      cases outcome with
      | ok result => rfl
      | error status => cases status <;> rfl
  | alignedAlloc outcome => cases outcome <;> rfl
  | mutexInit status => cases status <;> rfl
  | shutdown | bind | listen | connect | close => exact independent_sysCall _ _ _ _ _ _
  | malloc | realloc | lstat | opendir | accept | recv | send | socket | eventfd | read | write | mmap =>
      unfold WrapperCall.run
      rw [errAfter_discard, errAfter_discard]
      exact independent_sysCall _ _ _ _ _ _

/-- The exact condition: a wrapper reports the outcome of its own call unless it looks at `errno` after a
    `pthread_*` call that returned an error number. -/
theorem ownOutcome_iff (call : WrapperCall) : OwnOutcome call ↔ call.readsStaleErrno = false := by
  cases hspecial : call.special with
  | none =>
      have hstale : call.readsStaleErrno = false := by simp [WrapperCall.readsStaleErrno, hspecial]
      refine iff_of_true ⟨independent_of_not_special hspecial, ?_⟩ hstale
      intro status number own hown
      rw [hspecial] at hown
      cases hown
  | some special =>
      obtain ⟨status, number, own⟩ := special
      obtain ⟨hok, hsys⟩ := WrapperCall.special_ne hspecial
      cases status with
      | none =>
          have hstale : call.readsStaleErrno = false := by simp [WrapperCall.readsStaleErrno, hspecial]
          refine iff_of_true ⟨?_, ?_⟩ hstale
          · intro errno errno' err
            simp only [WrapperCall.run_special hspecial, errAfter_pthreadCall]
          · intro status' number' own' hown errno
            rw [hspecial] at hown
            cases hown
            rw [WrapperCall.run_special hspecial, errAfter_pthreadCall]
            exact iff_of_false (Ne.symm hok) nofun
      | some returned =>
          have hstale : call.readsStaleErrno = true := by simp [WrapperCall.readsStaleErrno, hspecial]
          rw [hstale]
          refine iff_of_false ?_ nofun
          intro h
          obtain ⟨hown, hother⟩ := not_independent hspecial rfl
          -- Some number is not the special one.
          obtain ⟨errno, hne⟩ : ∃ errno : Errno, errno ≠ number := by
            by_cases hzero : number = .other 0
            · exact ⟨.ebusy, by simp [hzero]⟩
            · exact ⟨.other 0, Ne.symm hzero⟩
          apply hsys
          rw [← hown, h.independent number errno .ok]
          exact hother errno hne

/-- The mutex is busy, and `errno` is still 0: `jcl_mutex_trylock` reports `JCL_ERR_SYS`. After a call that left
    `EBUSY` it would report `JCL_ERR_MUTEX_BUSY`. -/
theorem trylock_reports_stale :
    ¬ OwnOutcome (.mutexTrylock (some .ebusy)) ∧
      errAfter (jclMutexTrylock (some .ebusy)) (.other 0) .ok = .sys ∧
      errAfter (jclMutexTrylock (some .ebusy)) .ebusy .ok = .mutexBusy := by
  refine ⟨?_, rfl, rfl⟩
  intro h
  have hzero := h.independent (.other 0) .ebusy .ok
  exact absurd hzero nofun

end Jcl.Wrappers
