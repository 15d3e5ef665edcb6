/-
Module: Jcl.Error
Layer: Model
Purpose: `error.c`: the wrappers of the calls that move data through a descriptor. A descriptor comes with the
  schedule of what its coming calls do; a call on it is atomic. Each wrapper sets `*err` when the call
  failed and leaves it alone otherwise.
Imports: Jcl.Lib.Returns, Jcl.Lib.Transfer, Jcl.Machine
Trusted boundary: human-reviewed spec; `jfs_read` and `jfs_write` are the wrappers named `jcl_read` and
  `jcl_write` here, and `RES_ERR`, which no file defines, stores `JCL_OK` in `*err`
Main exports: Errno, IoState, IoM, Input, ioCall, jclRecv, jclSend, jclRead, jclWrite, resErr
-/
import Jcl.Lib.Returns
import Jcl.Lib.Transfer
import Jcl.Machine

namespace Jcl

/-- The values of `errno` that the file tells apart, and the others by number. -/
inductive Errno where
  | eacces
  | enoent
  | enotdir
  | econnaborted
  | eproto
  | enoprotoopt
  | ehostdown
  | enonet
  | ehostunreach
  | eopnotsupp
  | enetunreach
  | eagain
  | eintr
  | econnrefused
  | etimedout
  | econnreset
  | epipe
  | ebusy
  | other (code : Nat)
deriving DecidableEq, Repr

/-- A descriptor with the schedule of its coming calls, the data that the calls move, whether one of them has
    found the end of the stream, and `*err`. -/
structure IoState (D : Type) where
  schedule : Schedule Errno
  data : D
  ended : Bool
  err : JclErr

/-- A call that moves data: it may stop with a fault. -/
abbrev IoM (D : Type) := StateT (IoState D) (Except Fault)

/-- The bytes that come in through a descriptor, how many of them were taken out, and the buffer for them. -/
structure Input where
  stream : Stream' UInt8
  consumed : Nat
  buf : List UInt8

/-- The next `n` bytes of the stream are stored in the buffer from `offset` on. -/
def Input.take (offset n : Nat) (input : Input) : Input :=
  { input with
    consumed := input.consumed + n
    buf := input.buf.take offset ++ (input.stream.drop input.consumed).take n ++ input.buf.drop (offset + n) }

/-- The bytes that were handed over. -/
abbrev Output := List UInt8

/-- `n` bytes of `buf` from `offset` on are handed over. -/
def Output.give (buf : List UInt8) (offset n : Nat) (output : Output) : Output :=
  output ++ (buf.drop offset).take n

/-- A wrapper for a call that is asked to move `size` bytes: the number of bytes that `move` moved, or 0 with
    `*err` set from `errno`. -/
def ioCall {D : Type} (errOf : Errno → JclErr) (move : Nat → D → D) (size : Nat) : IoM D Nat := do
  let s ← get
  match s.schedule.head with
  | .moved n =>
      let status := min (n + 1) size
      set { s with schedule := s.schedule.tail, data := move status s.data }
      return status
  | .ended =>
      set { s with schedule := s.schedule.tail, ended := true }
      return 0
  | .failed errno =>
      set { s with schedule := s.schedule.tail, err := errOf errno }
      return 0

/-- The `switch` of `jcl_recv`. -/
def recvErr : Errno → JclErr
  | .eagain => .again
  | .eintr => .inter
  | _ => .sys

/-- `jcl_recv` into the buffer from `offset` on. -/
def jclRecv (offset size : Nat) : IoM Input Nat := ioCall recvErr (Input.take offset) size

/-- The `switch` of `jcl_send`. -/
def sendErr : Errno → JclErr
  | .eagain => .again
  | .econnreset => .connectionReset
  | .eintr => .inter
  | .epipe => .pipe
  | _ => .sys

/-- `jcl_send` from `buf` from `offset` on. The flags do not change what is sent. -/
def jclSend (buf : List UInt8) (offset size : Nat) : IoM Output Nat := ioCall sendErr (Output.give buf offset) size

/-- The `switch` of `jcl_read`. -/
def readErr : Errno → JclErr
  | .eagain => .again
  | .eintr => .inter
  | _ => .sys

/-- `jcl_read` into the buffer from `offset` on. -/
def jclRead (offset size : Nat) : IoM Input Nat := ioCall readErr (Input.take offset) size

/-- The `switch` of `jcl_write`. -/
def writeErr : Errno → JclErr
  | .eagain => .again
  | .eintr => .inter
  | .epipe => .pipe
  | _ => .sys

/-- `jcl_write` from `buf` from `offset` on. -/
def jclWrite (buf : List UInt8) (offset size : Nat) : IoM Output Nat :=
  ioCall writeErr (Output.give buf offset) size

/-- `RES_ERR`. -/
def resErr {D : Type} : IoM D Unit := modify fun s => { s with err := .ok }

end Jcl
