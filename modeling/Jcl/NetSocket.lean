/-
Module: Jcl.NetSocket
Layer: Model
Purpose: `net_socket.c`: receiving and sending a number of bytes.
Imports: Jcl.IoLoop
Trusted boundary: human-reviewed spec
Main exports: jclNsSocketRecv, jclNsSocketSend
-/
import Jcl.IoLoop

namespace Jcl

/-- `jcl_ns_socket_recv`. -/
def jclNsSocketRecv (bufSize rounds : Nat) : IoM Input Nat :=
  ioLoop jclRecv true (some .nsConnectionClose) bufSize rounds 0

/-- `jcl_ns_socket_send`. -/
def jclNsSocketSend (buf : List UInt8) (bufSize rounds : Nat) : IoM Output Nat :=
  ioLoop (jclSend buf) true none bufSize rounds 0

end Jcl
