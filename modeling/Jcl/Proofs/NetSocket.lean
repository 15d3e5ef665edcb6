/-
Module: Jcl.Proofs.NetSocket
Layer: Proofs
Purpose: Sockets deliver the stream: whatever the sizes of the transfers and wherever they are interrupted,
  `jcl_ns_socket_send` hands over and `jcl_ns_socket_recv` stores every byte once and in order.
Imports: Jcl.NetSocket, Jcl.Proofs.IoLoop
Trusted boundary: none (fully proved)
Main exports: sendErr_map, recvErr_map, socket_stream_exact
-/
import Jcl.NetSocket
import Jcl.Proofs.IoLoop

namespace Jcl

open Transfer

theorem sendErr_map : ErrnoMap sendErr where
  inter_iff e := by cases e <;> simp [sendErr]
  ne_ok e := by cases e <;> simp [sendErr]
  ne_close e := by cases e <;> simp [sendErr]
  ne_end e := by cases e <;> simp [sendErr]

theorem recvErr_map : ErrnoMap recvErr where
  inter_iff e := by cases e <;> simp [recvErr]
  ne_ok e := by cases e <;> simp [recvErr]
  ne_close e := by cases e <;> simp [recvErr]
  ne_end e := by cases e <;> simp [recvErr]

/-- A send that comes back. -/
def SendReturns (buf : List UInt8) (size : Nat) (schedule : Schedule Errno) (r : Nat) (s' : IoState Output) :
    Prop := LoopReturns (jclNsSocketSend buf size) ⟨schedule, [], false, .ok⟩ r s'

/-- A receive that comes back. -/
def RecvReturns (input : Input) (size : Nat) (schedule : Schedule Errno) (r : Nat) (s' : IoState Input) :
    Prop := LoopReturns (jclNsSocketRecv size) ⟨schedule, input, false, .ok⟩ r s'

theorem SendReturns.delivered {buf : List UInt8} {size r : Nat} {schedule : Schedule Errno} {s' : IoState Output}
    (hendless : Endless schedule) (h : SendReturns buf size schedule r s') : Delivered buf size r s' :=
  exact_output_iff.1 (ioLoop_exact sendErr_map (fun _ hin => nomatch hin) (fun _ => hendless) Output.movesTo rfl rfl
    rfl h)

theorem RecvReturns.taken {input : Input} {size r : Nat} {schedule : Schedule Errno} {s' : IoState Input}
    (h : RecvReturns input size schedule r s') : Taken input size .nsConnectionClose r s' := by
  refine exact_input_iff.1 (ioLoop_exact recvErr_map ?_ (fun hnone => nomatch hnone) Input.movesTo rfl rfl rfl h)
  intro err hin
  cases hin
  exact Or.inl rfl

/-- Every send that returns has handed over the first `r` bytes of the buffer, every receive that returns has
    stored the next `r` bytes of the stream, and they return if there are finitely many interruptions. A full
    receive of what a full send handed over has the same bytes. -/
theorem socket_stream_exact :
    (∀ buf size schedule, Endless schedule →
      (∀ r s', SendReturns buf size schedule r s' → Delivered buf size r s') ∧
      (FinitelyInterrupted .eintr schedule → ∃ r s', SendReturns buf size schedule r s')) ∧
    (∀ input size schedule,
      (∀ r s', RecvReturns input size schedule r s' → Taken input size .nsConnectionClose r s') ∧
      (FinitelyInterrupted .eintr schedule → ∃ r s', RecvReturns input size schedule r s')) ∧
    ∀ buf size schedule schedule' input s₁ s₂, Endless schedule → SendReturns buf size schedule size s₁ →
      (input.stream.drop input.consumed).take size = s₁.data → RecvReturns input size schedule' size s₂ →
      s₂.data.buf.take size = buf.take size := by
  refine ⟨fun buf size schedule hendless => ⟨fun r s' h => h.delivered hendless, fun hfinite => ?_⟩,
    fun input size schedule => ⟨fun r s' h => h.taken, fun hfinite => ?_⟩,
    fun buf size schedule schedule' input s₁ s₂ hendless hsend hstream hrecv => ?_⟩
  · have hmove : MovesTo (Output.give buf) (Output.after buf []) size := Output.movesTo
    exact ioLoop_returns sendErr_map hmove (fun _ => hendless) hfinite rfl rfl
  · exact ioLoop_returns recvErr_map Input.movesTo (fun hnone => nomatch hnone) hfinite rfl rfl
  · rw [hrecv.taken.bytes, List.take_left' (Stream'.length_take _ _), hstream, (hsend.delivered hendless).bytes]

/-- Three bytes are sent one by one after an interruption, and received as two and one around another. -/
theorem socket_stream_exact_three :
    ∃ schedule schedule' s₁ s₂, SendReturns [1, 2, 3] 3 schedule 3 s₁ ∧
      RecvReturns ⟨[1, 2, 3] ++ₛ Stream'.const 0, 0, [9, 9, 9, 9]⟩ 3 schedule' 3 s₂ ∧
      s₂.data.buf.take 3 = [1, 2, 3] := by
  let schedule : Schedule Errno := [.failed .eintr] ++ₛ Stream'.const (.moved 0)
  let schedule' : Schedule Errno := [.moved 1, .failed .eintr] ++ₛ Stream'.const (.moved 4)
  let input : Input := ⟨[1, 2, 3] ++ₛ Stream'.const 0, 0, [9, 9, 9, 9]⟩
  let s₁ := stateAfter (jclNsSocketSend [1, 2, 3] 3 5) ⟨schedule, [], false, .ok⟩
  let s₂ := stateAfter (jclNsSocketRecv 3 5) ⟨schedule', input, false, .ok⟩
  have hsend : SendReturns [1, 2, 3] 3 schedule 3 s₁ := ⟨5, run_of_resultOf (by decide)⟩
  have hrecv : RecvReturns input 3 schedule' 3 s₂ := ⟨5, run_of_resultOf (by decide)⟩
  have hendless : Endless schedule := fun j => by
    rcases j with _ | j
    · exact fun h => nomatch h
    · exact fun h => nomatch h
  obtain ⟨-, -, hsame⟩ := socket_stream_exact
  exact ⟨schedule, schedule', s₁, s₂, hsend, hrecv,
    hsame [1, 2, 3] 3 schedule schedule' input s₁ s₂ hendless hsend (by decide) hrecv⟩

end Jcl
