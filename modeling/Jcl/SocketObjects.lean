/-
Module: Jcl.SocketObjects
Layer: Model
Purpose: `net_socket.c`: the socket objects, from their creation to their destruction. The operating system comes with
  the answers that it will give; a descriptor and an address that it hands out are not in use, and may have been in
  use before. The log says which descriptors it handed out and for which ones `close` was called, whatever that
  answered.
Imports: Jcl.Lib.Custody, Jcl.Wrappers
Trusted boundary: human-reviewed spec; `RES_ERR`, which no file defines, stores `JCL_OK` in `*err`, and `jcl_OK` is
  `JCL_OK`. A call that fails leaves the address that it was given alone. The retry loop of `jcl_ns_socket_accept`
  runs for at most the given number of rounds; no number of rounds suffices for every system.
Main exports: SockaddrIn, NsSocket, NetOs, NetSys, NetM, jclNsSocketCreate, jclNsSocketOpen, jclNsSocketClose,
  jclNsSocketDestroy, jclNsSocketAccept
-/
import Jcl.Lib.Custody
import Jcl.Wrappers

namespace Jcl.Sockets

open Ledger (Entry unreleased)
open Wrappers (ErrState ErrM)

/-- `struct sockaddr_in`. -/
structure SockaddrIn where
  sinFamily : UInt16
  sinPort : UInt16
  sinAddr : UInt32
deriving DecidableEq, Repr

/-- An address after `memset` to 0. -/
def SockaddrIn.zero : SockaddrIn := { sinFamily := 0, sinPort := 0, sinAddr := 0 }

/-- `sizeof(struct sockaddr_in)`. -/
def sizeofSockaddrIn : Nat := 16

/-- `AF_INET`. -/
def afInet : UInt16 := 2

/-- `struct jcl_ns_socket`. -/
structure NsSocket where
  fd : Int
  addr : SockaddrIn
deriving DecidableEq, Repr

/-- What `accept` gives out: the descriptor, and the address of the peer with its length. -/
structure Accepted where
  fd : Int
  addr : SockaddrIn
  addrlen : Nat
deriving DecidableEq, Repr

/-- The answers of the operating system to its coming calls, by their numbers. An answer may depend on the blocks and
    the descriptors that are in use, and what is handed out is none of these. -/
structure NetOs where
  malloc : Nat → List Addr → Except Errno Addr
  socket : Nat → List Int → Except Errno Int
  accept : Nat → Int → List Int → Except Errno Accepted
  close : Nat → Int → Except Errno Unit
  malloc_fresh : ∀ n blocks ptr, malloc n blocks = .ok ptr → ptr ≠ null ∧ ptr ∉ blocks
  socket_fresh : ∀ n fds fd, socket n fds = .ok fd → 0 ≤ fd ∧ fd ∉ fds
  accept_fresh : ∀ n sockFd fds accepted, accept n sockFd fds = .ok accepted → 0 ≤ accepted.fd ∧ accepted.fd ∉ fds

/-- The operating system with the number of its next call, the blocks that were allocated and not freed, the socket
    objects in them, and the log of the descriptors, with the latest entry first; and `errno` and `*err`. -/
structure NetSys where
  os : NetOs
  calls : Nat
  blocks : List Addr
  sockets : Addr → Option NsSocket
  events : List (Entry Int)
  errs : ErrState

/-- A call that may stop with a fault. -/
abbrev NetM := StateT NetSys (Except Fault)

/-! ### The error variable -/

/-- `*err`. -/
def getErr : NetM JclErr := do return (← get).errs.err

/-- The condition of the `CHECK_ERR` macros. -/
def failed : NetM Bool := do return (← get).errs.err != .ok

/-- An assignment to `*err`; with `ok` it is `RES_ERR`. -/
def setErr (err : JclErr) : NetM Unit := modify fun s => { s with errs := { s.errs with err := err } }

/-- A wrapper of `error.c` on the answer of the call that it wraps. -/
def wrapped {α : Type} (wrapper : ErrM α) : NetM α := do
  let s ← get
  let (value, errs) := wrapper.run s.errs
  set { s with errs := errs }
  return value

/-! ### The calls on the system -/

/-- `jcl_malloc`. -/
def jclMalloc : NetM Addr := do
  let s ← get
  let outcome := s.os.malloc s.calls s.blocks
  set { s with calls := s.calls + 1, blocks := outcome.toOption.toList ++ s.blocks }
  wrapped (Wrappers.jclMalloc outcome)

/-- `free`. -/
def free (ptr : Addr) : NetM Unit :=
  modify fun s => { s with blocks := s.blocks.erase ptr, sockets := Function.update s.sockets ptr none }

/-- The log after an answer with a descriptor, or without one. -/
def obtained (fd : Except Errno Int) (events : List (Entry Int)) : List (Entry Int) :=
  match fd with
  | .ok fd => .acquired fd :: events
  | .error _ => events

/-- `jcl_socket`. -/
def jclSocket : NetM Int := do
  let s ← get
  let outcome := s.os.socket s.calls (unreleased s.events)
  set { s with calls := s.calls + 1, events := obtained outcome s.events }
  wrapped (Wrappers.jclSocket outcome)

/-- `jcl_accept`: the descriptor, and what `*addr` and `*addrlen` are after it. -/
def jclAccept (sockFd : Int) (addr : SockaddrIn) (addrlen : Nat) : NetM (Int × SockaddrIn × Nat) := do
  let s ← get
  let outcome := s.os.accept s.calls sockFd (unreleased s.events)
  set { s with calls := s.calls + 1, events := obtained (outcome.map Accepted.fd) s.events }
  let fd ← wrapped (Wrappers.jclAccept (outcome.map Accepted.fd))
  match outcome with
  | .ok accepted => return (fd, accepted.addr, accepted.addrlen)
  | .error _ => return (fd, addr, addrlen)

/-- The answer of `close`. -/
def closeAnswer (fd : Int) : NetM (Except Errno Unit) := do
  let s ← get
  set { s with calls := s.calls + 1, events := .released fd :: s.events }
  return s.os.close s.calls fd

/-- `close`. -/
def close (fd : Int) : NetM Unit := do
  let _ ← wrapped (Wrappers.sysCall (← closeAnswer fd))

/-- `jcl_close`. -/
def jclClose (closeFd : Int) : NetM Unit := do
  wrapped (Wrappers.jclClose (← closeAnswer closeFd))

/-! ### Socket objects -/

/-- Accessing a socket object requires that it was allocated and not freed. -/
def deref (sock : Addr) : NetM Unit := do
  if sock = null then throw .nullDeref
  if sock ∉ (← get).blocks then throw .outOfBounds

/-- Reading the fields of `*sock`. -/
def readSocket (sock : Addr) : NetM NsSocket := do
  deref sock
  match (← get).sockets sock with
  | none => throw .uninitialized
  | some object => return object

/-- Writing the fields of `*sock`. -/
def writeSocket (sock : Addr) (object : NsSocket) : NetM Unit := do
  deref sock
  modify fun s => { s with sockets := Function.update s.sockets sock (some object) }

/-- `jcl_ns_socket_create`. -/
def jclNsSocketCreate : NetM Addr := do
  let sock ← jclMalloc
  if ← failed then return null
  writeSocket sock { fd := -1, addr := .zero }
  return sock

/-- `jcl_ns_socket_open`. -/
def jclNsSocketOpen (sock : Addr) : NetM Unit := do
  let newFd ← jclSocket
  if ← failed then return
  writeSocket sock { (← readSocket sock) with fd := newFd }

/-- `jcl_ns_socket_close`. -/
def jclNsSocketClose (sock : Addr) : NetM Unit := do
  if sock = null then return
  let object ← readSocket sock
  if object.fd = -1 then return
  jclClose object.fd
  writeSocket sock { object with fd := -1 }

/-- `jcl_ns_socket_destroy`: what `*sock_give` is after it, where `sock_give` is not `NULL`. -/
def jclNsSocketDestroy (sockGive : Option Addr) : NetM (Option Addr) := do
  match sockGive with
  | none => return none
  | some sock =>
      if sock = null then return some null
      let object ← readSocket sock
      if object.fd ≠ -1 then close object.fd
      free sock
      return some null

/-- The body of the `do` loop of `jcl_ns_socket_accept`: what `addrlen` is after it. -/
def acceptRound (sock acceptSock : Addr) (addrlen : Nat) : NetM Nat := do
  if (← getErr) = .inter then setErr .ok
  let (fd, addr, addrlen) ← jclAccept (← readSocket sock).fd (← readSocket acceptSock).addr addrlen
  writeSocket acceptSock { fd := fd, addr := addr }
  return addrlen

/-- The loop, with at most so many rounds left. -/
def acceptLoop (sock acceptSock : Addr) : Nat → Nat → NetM Nat
  | 0, _ => throw .diverges
  | rounds + 1, addrlen => do
      let addrlen ← acceptRound sock acceptSock addrlen
      if (← getErr) = .inter then acceptLoop sock acceptSock rounds addrlen else return addrlen

/-- `jcl_ns_socket_accept`. -/
def jclNsSocketAccept (sock : Addr) (rounds : Nat) : NetM Addr := do
  let acceptSock ← jclNsSocketCreate
  if ← failed then return null
  let addrlen ← acceptLoop sock acceptSock rounds sizeofSockaddrIn
  if ← failed then
    let _ ← jclNsSocketDestroy (some acceptSock)
    return null
  let object ← readSocket acceptSock
  if object.addr.sinFamily ≠ afInet ∨ addrlen ≠ sizeofSockaddrIn then
    setErr .nsBadAccept
    let _ ← jclNsSocketDestroy (some acceptSock)
    return null
  return acceptSock

end Jcl.Sockets
