/-
Module: Jcl.Proofs.FileIo
Layer: Proofs
Purpose: `jfs_fio_write` and `jfs_fio_read` leave `*err` at an interruption, so that a call that succeeds after
  it is taken for another interruption: the bytes it moved are written again, or lost.
Imports: Jcl.FileIo, Jcl.Proofs.IoLoop
Trusted boundary: none (fully proved)
Main exports: writeErr_map, readErr_map, write_once_iff, read_all_iff
-/
import Jcl.FileIo
import Jcl.Proofs.IoLoop

namespace Jcl

open Transfer

theorem writeErr_map : ErrnoMap writeErr where
  inter_iff e := by cases e <;> simp [writeErr]
  ne_ok e := by cases e <;> simp [writeErr]
  ne_close e := by cases e <;> simp [writeErr]
  ne_end e := by cases e <;> simp [writeErr]

theorem readErr_map : ErrnoMap readErr where
  inter_iff e := by cases e <;> simp [readErr]
  ne_ok e := by cases e <;> simp [readErr]
  ne_close e := by cases e <;> simp [readErr]
  ne_end e := by cases e <;> simp [readErr]

section

variable {buf : List UInt8} {size : Nat} {schedule : Schedule Errno}

/-- `jfs_fio_write` returns with every byte written once exactly if no call of `write` succeeds right after an
    interruption. -/
theorem write_once_iff (hbuf : size ≤ buf.length) (hendless : Endless schedule)
    (hfinite : FinitelyInterrupted .eintr schedule) :
    (∃ r s', LoopReturns (jfsFioWrite buf size) ⟨schedule, [], false, .ok⟩ r s' ∧ Delivered buf size r s') ↔
      ¬ SucceedsInterrupted .eintr size schedule := by
  simp only [← exact_output_iff]
  exact ioLoop_exact_iff writeErr_map (fun _ hin => nomatch hin) Output.movesTo (Output.weighs hbuf)
    (fun _ => hendless) hfinite (Nat.zero_le size) rfl rfl rfl

end

/-- A write in two parts, with no interruption. -/
theorem write_once_iff_two :
    ∃ r s', LoopReturns (jfsFioWrite [10, 11] 2) ⟨Stream'.const (.moved 0), [], false, .ok⟩ r s' ∧
      Delivered [10, 11] 2 r s' := by
  have hendless : Endless (Stream'.const (.moved 0) : Schedule Errno) := fun _ h => nomatch h
  have hfinite : FinitelyInterrupted Errno.eintr (Stream'.const (.moved 0)) := ⟨0, fun _ _ h => nomatch h⟩
  have hfirst : (Stream'.const (.moved 0) : Schedule Errno).head = .moved 0 := rfl
  have hsecond : (Stream'.const (.moved 0) : Schedule Errno).tail.head = .moved 0 := rfl
  refine (write_once_iff (by decide) hendless hfinite).2 fun h => ?_
  rw [succeedsInterrupted_moved hfirst, succeedsInterrupted_moved hsecond] at h
  exact absurd h.pos (by decide)

/-- The call after the interruption writes the byte 10, and so does the next one; the call after that fails, and
    the count is 0. -/
theorem write_twice :
    ∃ s', LoopReturns (jfsFioWrite [10, 11] 2)
        ⟨[.failed .eintr, .moved 0, .moved 0] ++ₛ Stream'.const (.failed .epipe), [], false, .ok⟩ 0 s' ∧
      s'.data = [10, 10] ∧ ¬ Delivered [10, 11] 2 0 s' := by
  let schedule : Schedule Errno := [.failed .eintr, .moved 0, .moved 0] ++ₛ Stream'.const (.failed .epipe)
  let s' := stateAfter (jfsFioWrite [10, 11] 2 5) ⟨schedule, [], false, .ok⟩
  have hdata : s'.data = [10, 10] := by decide
  refine ⟨s', ⟨5, run_of_resultOf (by decide)⟩, hdata, fun h => ?_⟩
  have hbytes := h.bytes
  rw [hdata] at hbytes
  cases hbytes

section

variable {input : Input} {size : Nat} {schedule : Schedule Errno}

/-- `jfs_fio_read` returns with every byte it took out counted exactly if no call of `read` succeeds right
    after an interruption. -/
theorem read_all_iff (hfinite : FinitelyInterrupted .eintr schedule) :
    (∃ r s', LoopReturns (jfsFioRead size) ⟨schedule, input, false, .ok⟩ r s' ∧
      Taken input size .fioFileEnd r s') ↔ ¬ SucceedsInterrupted .eintr size schedule := by
  simp only [← exact_input_iff]
  refine ioLoop_exact_iff readErr_map ?_ Input.movesTo Input.weighs (fun hnone => nomatch hnone) hfinite
    (Nat.zero_le size) rfl rfl rfl
  intro err hin
  cases hin
  exact Or.inr rfl

end

/-- Two bytes are read, and then the end of the stream is found. -/
theorem read_all_iff_two :
    ∃ r s', LoopReturns (jfsFioRead 3) ⟨[.moved 0, .moved 0] ++ₛ Stream'.const .ended, ⟨Stream'.const 7, 0, [0, 0, 0]⟩,
        false, .ok⟩ r s' ∧ Taken ⟨Stream'.const 7, 0, [0, 0, 0]⟩ 3 .fioFileEnd r s' := by
  let schedule : Schedule Errno := [.moved 0, .moved 0] ++ₛ Stream'.const .ended
  have hfirst : schedule.head = .moved 0 := rfl
  have hsecond : schedule.tail.head = .moved 0 := rfl
  have hthird : schedule.tail.tail.head = .ended := rfl
  have hfinite : FinitelyInterrupted Errno.eintr schedule := by
    refine ⟨0, fun j _ => ?_⟩
    rcases j with _ | _ | j
    · exact fun h => nomatch h
    · exact fun h => nomatch h
    · exact fun h => nomatch h
  refine (read_all_iff hfinite).2 fun h => ?_
  rw [succeedsInterrupted_moved hfirst, succeedsInterrupted_moved hsecond] at h
  exact not_succeedsInterrupted_ended hthird h

/-- Two bytes are read after an interruption and neither is counted; the call after that fails. -/
theorem read_lost :
    ∃ s', LoopReturns (jfsFioRead 2) ⟨[.failed .eintr, .moved 0, .moved 0] ++ₛ Stream'.const (.failed .eagain),
        ⟨[10, 11, 12] ++ₛ Stream'.const 0, 0, [0, 0]⟩, false, .ok⟩ 0 s' ∧
      s'.data.consumed = 2 ∧ s'.data.buf = [11, 0] ∧
      ¬ Taken ⟨[10, 11, 12] ++ₛ Stream'.const 0, 0, [0, 0]⟩ 2 .fioFileEnd 0 s' := by
  let schedule : Schedule Errno := [.failed .eintr, .moved 0, .moved 0] ++ₛ Stream'.const (.failed .eagain)
  let s' := stateAfter (jfsFioRead 2 5) ⟨schedule, ⟨[10, 11, 12] ++ₛ Stream'.const 0, 0, [0, 0]⟩, false, .ok⟩
  have hconsumed : s'.data.consumed = 2 := by decide
  refine ⟨s', ⟨5, run_of_resultOf (by decide)⟩, hconsumed, by decide, fun h => ?_⟩
  have hbytes := congrArg Input.consumed h.bytes
  rw [hconsumed] at hbytes
  cases hbytes

end Jcl
