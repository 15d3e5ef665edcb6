/-
Module: Jcl.SocketConnections
Layer: Model
Purpose: `net_socket.c`: the functions that give a socket object its address and that make a connection of it. They
  work on the system of the socket objects, beside which there are the answers of the calls that they make, the log of
  these calls, and the lists that `getaddrinfo` allocated.
Imports: Jcl.SocketObjects, Jcl.Resources
Trusted boundary: human-reviewed spec; of a list of `getaddrinfo` only the first entry is modelled, since the others are
  not read. What `inet_pton` accepts is part of the system. The retry loops run for at most the given number of rounds.
Main exports: Addrinfo, SysRequest, ConnOs, ConnSys, ConnM, htons, portStr, jclNsSocketShutdown, jclNsSocketSetIp,
  jclNsSocketSetHostname, jclNsSocketBind, jclNsSocketListen, jclNsSocketConnect
-/
import Jcl.SocketObjects
import Jcl.Resources

namespace Jcl.Sockets

open Ledger (Entry unreleased)
open Wrappers (ErrState ErrM GaiStatus)

/-- `struct addrinfo`, with the address that `ai_addr` points to. -/
structure Addrinfo where
  aiFamily : Int
  aiAddrlen : Nat
  aiAddr : SockaddrIn
deriving DecidableEq, Repr

/-- A call on a descriptor, with what it is given. -/
inductive SysRequest where
  | shutdown (sockFd how : Int)
  | bind (sockFd : Int) (addr : SockaddrIn) (addrlen : Nat)
  | listen (sockFd : Int) (backlog : Nat)
  | connect (sockFd : Int) (addr : SockaddrIn) (addrlen : Nat)
deriving DecidableEq, Repr

/-- The answers of the system to these calls, by their numbers, and to `getaddrinfo`, whose list is not one that is
    in use and whose addresses are of the family that it says; and the addresses that `inet_pton` reads, in network
    byte order. -/
structure ConnOs where
  answer : Nat → SysRequest → Except Errno Unit
  getaddrinfo : Nat → CStr → CStr → List Addr → Except GaiStatus (Addr × Addrinfo)
  inetPton : CStr → Option UInt32
  getaddrinfo_fresh : ∀ n name port lists list info, getaddrinfo n name port lists = .ok (list, info) →
    list ≠ null ∧ list ∉ lists
  getaddrinfo_family : ∀ n name port lists list info, getaddrinfo n name port lists = .ok (list, info) →
    info.aiFamily = info.aiAddr.sinFamily.toNat

/-- The system of the socket objects with the number of the next of these calls, their log, the lists of `getaddrinfo`
    that are in memory and the log of their allocation, with the latest entries first. -/
structure ConnSys where
  net : NetSys
  os : ConnOs
  calls : Nat
  requests : List SysRequest
  infos : Addr → Option Addrinfo
  lists : List (Entry Addr)

/-- A call that may stop with a fault. -/
abbrev ConnM := StateT ConnSys (Except Fault)

/-- A call on the socket objects. -/
def onNet {α : Type} (call : NetM α) : ConnM α := do
  let s ← get
  let (value, net) ← call.run s.net
  set { s with net := net }
  return value

/-! ### The calls on the system -/

/-- A wrapper of `error.c` for a call on a descriptor. -/
def request (wrapper : Except Errno Unit → ErrM Unit) (req : SysRequest) : ConnM Unit := do
  let s ← get
  set { s with calls := s.calls + 1, requests := req :: s.requests }
  onNet (wrapped (wrapper (s.os.answer s.calls req)))

/-- `jcl_shutdown`. -/
def jclShutdown (sockFd how : Int) : ConnM Unit := request Wrappers.jclShutdown (.shutdown sockFd how)

/-- `jcl_bind`. -/
def jclBind (sockFd : Int) (addr : SockaddrIn) (addrlen : Nat) : ConnM Unit :=
  request Wrappers.jclBind (.bind sockFd addr addrlen)

/-- `jcl_listen`. -/
def jclListen (sockFd : Int) (backlog : Nat) : ConnM Unit := request Wrappers.jclListen (.listen sockFd backlog)

/-- `jcl_connect`. -/
def jclConnect (sockFd : Int) (addr : SockaddrIn) (addrlen : Nat) : ConnM Unit :=
  request Wrappers.jclConnect (.connect sockFd addr addrlen)

/-- `jcl_getaddrinfo`. -/
def jclGetaddrinfo (name portStr : CStr) : ConnM Addr := do
  let s ← get
  let outcome := s.os.getaddrinfo s.calls name portStr (unreleased s.lists)
  set { s with calls := s.calls + 1 }
  match outcome with
  | .ok (list, info) =>
      modify fun s => { s with infos := Function.update s.infos list (some info), lists := .acquired list :: s.lists }
      onNet (wrapped (Wrappers.jclGetaddrinfo (.ok list)))
  | .error status => onNet (wrapped (Wrappers.jclGetaddrinfo (.error status)))

/-- Reading the entry at the head of a list. -/
def readInfo (list : Addr) : ConnM Addrinfo := do
  if list = null then throw .nullDeref
  match (← get).infos list with
  | none => throw .outOfBounds
  | some info => return info

/-- `freeaddrinfo`. -/
def freeaddrinfo (list : Addr) : ConnM Unit :=
  modify fun s => { s with infos := Function.update s.infos list none, lists := .released list :: s.lists }

/-! ### Addresses -/

/-- `htons`, where the least significant byte of a word comes first. -/
def htons (port : UInt16) : UInt16 := port <<< 8 ||| port >>> 8

/-- `snprintf` with `"%d"` into a buffer of `NI_MAXSERV` bytes. -/
def portStr (port : UInt16) : CStr := ((Nat.toDigits 10 port.toNat).map fun digit => digit.toUInt8).take 31

/-- `jcl_ns_socket_set_ip`. -/
def jclNsSocketSetIp (sock : Addr) (serverPort : UInt16) (serverIp : CStr) : ConnM Unit := do
  if serverPort ≤ 1024 then
    onNet (setErr .arg)
    return
  match (← get).os.inetPton serverIp with
  | none => onNet (setErr .arg)
  | some sinAddr =>
      let addrIn : SockaddrIn := { sinFamily := afInet, sinPort := htons serverPort, sinAddr := sinAddr }
      onNet (do writeSocket sock { (← readSocket sock) with addr := addrIn })

/-- `jcl_ns_socket_set_hostname`. -/
def jclNsSocketSetHostname (sock : Addr) (serverPort : UInt16) (hostname : CStr) : ConnM Unit := do
  if serverPort ≤ 1024 then
    onNet (setErr .arg)
    return
  let result ← jclGetaddrinfo hostname (portStr serverPort)
  if ← onNet failed then return
  let info ← readInfo result
  if info.aiFamily ≠ afInet.toNat ∨ info.aiAddrlen ≠ sizeofSockaddrIn then
    freeaddrinfo result
    onNet (setErr .nsBadAddr)
    return
  onNet (do writeSocket sock { (← readSocket sock) with addr := info.aiAddr })
  freeaddrinfo result

/-! ### Connections -/

/-- `SHUT_WR`. -/
def shutWr : Int := 1

/-- `LISTEN_BACK_LOG`. -/
def listenBackLog : Nat := 5

/-- `jcl_ns_socket_shutdown`. -/
def jclNsSocketShutdown (sock : Addr) : ConnM Unit := do
  jclShutdown (← onNet (readSocket sock)).fd shutWr

/-- `jcl_ns_socket_listen`. -/
def jclNsSocketListen (sock : Addr) : ConnM Unit := do
  jclListen (← onNet (readSocket sock)).fd listenBackLog

/-- The body of the `do` loop of `jcl_ns_socket_bind` and `jcl_ns_socket_connect`. -/
def retryRound (call : NsSocket → ConnM Unit) (sock : Addr) : ConnM Unit := do
  if (← onNet getErr) = .inter then onNet (setErr .ok)
  call (← onNet (readSocket sock))

/-- The loop, with at most so many rounds left. -/
def retryLoop (call : NsSocket → ConnM Unit) (sock : Addr) : Nat → ConnM Unit
  | 0 => throw .diverges
  | rounds + 1 => do
      retryRound call sock
      if (← onNet getErr) = .inter then retryLoop call sock rounds

/-- `jcl_ns_socket_bind`. -/
def jclNsSocketBind (sock : Addr) (rounds : Nat) : ConnM Unit :=
  retryLoop (fun object => jclBind object.fd object.addr sizeofSockaddrIn) sock rounds

/-- `jcl_ns_socket_connect`. -/
def jclNsSocketConnect (sock : Addr) (rounds : Nat) : ConnM Unit :=
  retryLoop (fun object => jclConnect object.fd object.addr sizeofSockaddrIn) sock rounds

end Jcl.Sockets
