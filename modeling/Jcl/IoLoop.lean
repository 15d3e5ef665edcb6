/-
Module: Jcl.IoLoop
Layer: Model
Purpose: The loop that the four functions for whole buffers share: `jcl_ns_socket_recv`, `jcl_ns_socket_send`,
  `jfs_fio_read` and `jfs_fio_write`. They differ in the wrapper they call, in whether they reset `*err` after
  an interruption, and in whether they take a count of 0 for the end of the stream. A loop runs for at most the
  given number of rounds; no number of rounds suffices for every schedule.
Imports: Jcl.Error
Trusted boundary: human-reviewed spec
Main exports: ioLoop
-/
import Jcl.Error

namespace Jcl

/-- `while (total < size)`, with at most so many rounds left. `call offset size` is the wrapper on the rest of
    the buffer, `resets` whether an interruption resets `*err`, and `endErr` the error for a count of 0, if
    there is one. -/
def ioLoop {D : Type} (call : Nat → Nat → IoM D Nat) (resets : Bool) (endErr : Option JclErr) (size : Nat) :
    Nat → Nat → IoM D Nat
  | 0, total => do
      if total < size then throw .diverges
      return total
  | rounds + 1, total => do
      if total < size then
        let count ← call total (size - total)
        if (← get).err = .inter then
          if resets then resErr
          ioLoop call resets endErr size rounds total
        else if (← get).err ≠ .ok then
          return total
        else
          match endErr, count with
          | some endErr, 0 =>
              modify fun s => { s with err := endErr }
              return total
          | _, count => ioLoop call resets endErr size rounds (total + count)
      else
        return total

end Jcl
