/-
Module: Jcl.Proofs.ConnectionRuns
Layer: Proofs
Purpose: A client that works on socket objects in any way, also one that opens them twice or goes on with an error
  pending. No two objects ever hold one descriptor, only what is open is closed, and a call asks the system for nothing
  but its own request, with the descriptor and the address of its own object. An object has the address that it was
  given last. The lists of `getaddrinfo` are all freed, unless one comes while an error is pending.
Imports: Jcl.Proofs.SocketConnections, Jcl.Proofs.SocketRuns
Trusted boundary: human-reviewed spec (ConnCall, ConnCall.Allowed, performConn, connectionSystem, Exclusive,
  ConnCall.asks, Proper, ConnCall.Sets, ConnCall.gives, addressSystem, ConnCall.Frees)
Main exports: connectionSystem, Exclusive, Proper, ConnCall.gives, Attended, Attended.step, connections_exclusive,
  addresses_kept, lists_freed_iff
-/
import Jcl.Proofs.SocketConnections
import Jcl.Proofs.SocketRuns

namespace Jcl.Sockets

open Ledger (Entry unreleased Legal Custody Tenancy Untouched)
open Wrappers (ErrState GaiStatus)

/-- A call of the client. -/
inductive ConnCall where
  | object (call : SocketCall)
  | shutdown (sock : Addr)
  | setIp (sock : Addr) (serverPort : UInt16) (serverIp : CStr)
  | setHostname (sock : Addr) (serverPort : UInt16) (hostname : CStr)
  | bind (sock : Addr) (rounds : Nat)
  | listen (sock : Addr)
  | connect (sock : Addr) (rounds : Nat)
deriving DecidableEq, Repr

/-- The client passes pointers that it was given and did not destroy. -/
def ConnCall.Allowed (socks : List Addr) : ConnCall → Prop
  | .object call => call.Allowed socks
  | .shutdown sock => sock ∈ socks
  | .setIp sock _ _ => sock ∈ socks
  | .setHostname sock _ _ => sock ∈ socks
  | .bind sock _ => sock ∈ socks
  | .listen sock => sock ∈ socks
  | .connect sock _ => sock ∈ socks

/-- A call of the client, which holds these pointers, with this error in `*err`: the pointers that it holds
    after it. -/
def performConn (err : JclErr) (socks : List Addr) (call : ConnCall) : ConnM (List Addr) := do
  onNet (setErr err)
  match call with
  | .object call => onNet (perform err socks call)
  | .shutdown sock =>
      jclNsSocketShutdown sock
      return socks
  | .setIp sock serverPort serverIp =>
      jclNsSocketSetIp sock serverPort serverIp
      return socks
  | .setHostname sock serverPort hostname =>
      jclNsSocketSetHostname sock serverPort hostname
      return socks
  | .bind sock rounds =>
      jclNsSocketBind sock rounds
      return socks
  | .listen sock =>
      jclNsSocketListen sock
      return socks
  | .connect sock rounds =>
      jclNsSocketConnect sock rounds
      return socks

/-- The runs of a client from `start` on. A state is the system with the pointers that the client holds. -/
def connectionSystem (start : ConnSys) : System (ConnSys × List Addr) (JclErr × ConnCall) where
  init st := st = (start, [])
  step st l st' := l.2.Allowed st.2 ∧ (performConn l.1 st.2 l.2).run st.1 = .ok (st'.2, st'.1)

/-- The descriptor of a request. -/
def SysRequest.sockFd : SysRequest → Int
  | .shutdown sockFd _ => sockFd
  | .bind sockFd _ _ => sockFd
  | .listen sockFd _ => sockFd
  | .connect sockFd _ _ => sockFd

/-- The address of a request. -/
def SysRequest.addr? : SysRequest → Option SockaddrIn
  | .bind _ addr _ => some addr
  | .connect _ addr _ => some addr
  | _ => none

/-- Only a descriptor that was open was closed, and what an object holds is open and held by no other one. -/
structure Exclusive (socks : List Addr) (s : NetSys) : Prop where
  closed : ∀ newer fd older, s.events = newer ++ .released fd :: older → fd ≠ -1 ∧
    ∃ between before, older = between ++ .acquired fd :: before ∧ Untouched fd between
  held : ∀ sock ∈ socks, ∀ fd, s.holds sock = some fd → fd ∈ unreleased s.events
  unique : ∀ sock ∈ socks, ∀ sock' ∈ socks, ∀ fd, s.holds sock = some fd → s.holds sock' = some fd → sock = sock'

/-- The object that a call asks the system something for, with what it asks if this is what is stored there. -/
def ConnCall.asks (object : NsSocket) : ConnCall → Option (Addr × SysRequest)
  | .shutdown sock => some (sock, .shutdown object.fd shutWr)
  | .bind sock _ => some (sock, bindRequest object)
  | .listen sock => some (sock, .listen object.fd listenBackLog)
  | .connect sock _ => some (sock, connectRequest object)
  | .object _ | .setIp _ _ _ | .setHostname _ _ _ => none

/-- The request is what the call asks for this object: it is for the descriptor of the object, which is open and which
    no other one holds, or for `-1` if it has none, and with the address of the object, which was never set or is one of
    the internet. -/
structure ProperFor (socks : List Addr) (s : NetSys) (call : ConnCall) (req : SysRequest) (sock : Addr)
    (object : NsSocket) : Prop where
  asks : call.asks object = some (sock, req)
  mem : sock ∈ socks
  stored : s.sockets sock = some object
  fd : req.sockFd = object.fd
  live : object.fd = -1 ∨ object.fd ∈ unreleased s.events ∧
    ∀ other ∈ socks, s.holds other = some object.fd → other = sock
  addr : ∀ addr ∈ req.addr?, addr = object.addr
  named : object.addr.Named

/-- The request is such a one for an object of the client. -/
def Proper (socks : List Addr) (s : NetSys) (call : ConnCall) (req : SysRequest) : Prop :=
  ∃ sock object, ProperFor socks s call req sock object

/-- The call is to set the address of this object. -/
def ConnCall.Sets (sock : Addr) : ConnCall → Prop
  | .setIp sock' _ _ => sock' = sock
  | .setHostname sock' _ _ => sock' = sock
  | _ => False

/-- The address that `jcl_ns_socket_set_ip` stores, unless it refuses its arguments. -/
def ConnOs.ipAddr (os : ConnOs) (serverPort : UInt16) (serverIp : CStr) : Option SockaddrIn :=
  if serverPort ≤ 1024 then none
  else (os.inetPton serverIp).map fun sinAddr =>
    { sinFamily := afInet, sinPort := htons serverPort, sinAddr := sinAddr }

/-- The address that `jcl_ns_socket_set_hostname` stores, if no error is pending: that of the first entry which
    `getaddrinfo` answers. -/
def ConnSys.hostAddr (err : JclErr) (s : ConnSys) (serverPort : UInt16) (hostname : CStr) : Option SockaddrIn :=
  if serverPort ≤ 1024 ∨ err ≠ .ok then none
  else do
    let (_, info) ← (s.os.getaddrinfo s.calls hostname (portStr serverPort) (unreleased s.lists)).toOption
    if info.aiFamily ≠ afInet.toNat ∨ info.aiAddrlen ≠ sizeofSockaddrIn then none else some info.aiAddr

/-- The address that a call gives to an object, where the client holds the pointers `socks` before it and the system is
    `s'` after it. -/
def ConnCall.gives (err : JclErr) (s s' : ConnSys) (socks : List Addr) (sock : Addr) : ConnCall → Option SockaddrIn
  | .object call => call.gives s.net s'.net socks sock
  | .setIp sock' serverPort serverIp => if sock = sock' then s.os.ipAddr serverPort serverIp else none
  | .setHostname sock' serverPort hostname => if sock = sock' then s.hostAddr err serverPort hostname else none
  | .shutdown _ | .bind _ _ | .listen _ | .connect _ _ => none

/-- The runs with a record of the addresses that were given last. -/
def addressSystem (start : ConnSys) :
    System ((ConnSys × List Addr) × (Addr → Option SockaddrIn)) (JclErr × ConnCall) :=
  (connectionSystem start).recorded (fun _ => none) fun st l st' book sock =>
    (l.2.gives l.1 st.1 st'.1 st.2 sock).or (book sock)

/-- Where `getaddrinfo` yields a list, no error is pending. -/
def ConnCall.Frees (err : JclErr) (s : ConnSys) : ConnCall → Prop
  | .setHostname _ serverPort hostname => 1024 < serverPort → ∀ list info,
      s.os.getaddrinfo s.calls hostname (portStr serverPort) (unreleased s.lists) = .ok (list, info) → err = .ok
  | _ => True

/-- The call is interrupted in all its rounds. -/
def ConnCall.Waits (s : ConnSys) : ConnCall → Prop
  | .object call => call.Waits s.net
  | .bind _ rounds => rounds = 0
  | .connect sock rounds => ∀ object, s.net.sockets sock = some object → InterruptedFor s (connectRequest object) rounds
  | _ => False

/-- What a client can count on, whatever it does. -/
structure Attended (socks : List Addr) (s : ConnSys) : Prop where
  sound : SoundBy Tenancy socks s.net
  named : s.net.Named

/-- What one call does. -/
structure Served (socks : List Addr) (err : JclErr) (call : ConnCall) (s : ConnSys) (socks' : List Addr)
    (s' : ConnSys) : Prop where
  attended : Attended socks' s'
  requests : ∃ made, s'.requests = made ++ s.requests ∧ ∀ req ∈ made, Proper socks s.net call req
  addrs : ∀ sock ∈ socks', s'.net.addrOf sock = (call.gives err s s' socks sock).or (s.net.addrOf sock)
  reported : ∀ sock, call.Sets sock → call.gives err s s' socks sock = none → s'.net.errs.err ≠ .ok
  lists : call.Frees err s → unreleased s'.lists = unreleased s.lists

variable {s start : ConnSys} {socks : List Addr} {err : JclErr} {call : ConnCall} {sock : Addr} {object : NsSocket}

/-! ### The descriptors -/

/-- An object takes a new descriptor, and what it held is lost; or the new one is lost. -/
theorem open_tenancy {s : NetSys} (h : SoundBy Tenancy socks s) (hmem : sock ∈ socks) :
    Returns (jclNsSocketOpen sock) s fun _ s' => SoundBy Tenancy socks s' ∧ s'.addrOf = s.addrOf := by
  rw [jclNsSocketOpen, returns_bind, returns_jclSocket]
  cases hsocket : s.os.socket s.calls (unreleased s.events) with
  | error errno =>
      exact (returns_check_err (by simp)).2 (returns_pure.2 ⟨h.errs _ _, rfl⟩)
  | ok fd =>
      obtain ⟨hnonneg, hfresh⟩ := s.os.socket_fresh _ _ _ hsocket
      obtain ⟨object, hobject, hnull, hblock⟩ := h.lookup hmem
      have hnumbers : ∀ fd', .acquired fd' ∈ .acquired fd :: s.events → 0 ≤ fd' := by
        intro fd' hfd'
        rcases List.mem_cons.1 hfd' with heq | hold
        · cases heq
          exact hnonneg
        · exact h.numbers fd' hold
      by_cases herr : s.errs.err = .ok
      · refine (returns_check_ok (by exact herr)).2 ?_
        simp only [returns_bind, returns_readSocket, returns_writeSocket, hobject, Option.some.injEq, exists_eq_left']
        refine ⟨hnull, hblock, hnull, hblock, ?_, NetSys.addrOf_store hobject rfl rfl⟩
        refine h.store hmem rfl rfl ?_ hnumbers
        have hdescriptor : NsSocket.descriptor { object with fd := fd } = some fd :=
          NsSocket.descriptor_of_nonneg hnonneg
        rw [hdescriptor]
        exact h.custody.replace hfresh
      · refine (returns_check_err (by exact herr)).2 (returns_pure.2 ⟨?_, rfl⟩)
        exact ⟨h.nodup, h.stored, h.allocated, h.custody.drop hfresh, hnumbers⟩

theorem SoundBy.exclusive {s : NetSys} (h : SoundBy Tenancy socks s) : Exclusive socks s where
  closed newer fd older hevents := by
    have hlegal := h.custody.legal
    rw [hevents] at hlegal
    obtain ⟨between, before, hbefore, huntouched⟩ := hlegal.of_append.of_cons.last_acquired hlegal.unreleased_before
    refine ⟨?_, between, before, hbefore, huntouched⟩
    rintro rfl
    have hmem : Entry.acquired (-1) ∈ s.events := by simp [hevents, hbefore]
    exact absurd (h.numbers _ hmem) (by decide)
  held sock _ fd hheld := h.custody.held sock fd hheld
  unique sock _ sock' _ fd hheld hheld' := h.custody.unique sock sock' fd hheld hheld'

/-- Whatever a call asks, it is about its object. -/
theorem ConnCall.asks_own {req : SysRequest} (h : call.asks object = some (sock, req)) :
    req.sockFd = object.fd ∧ ∀ addr ∈ req.addr?, addr = object.addr := by
  cases call with
  | shutdown | listen =>
      cases h
      exact ⟨rfl, fun _ hnone => absurd hnone (by simp [SysRequest.addr?])⟩
  | bind | connect =>
      cases h
      exact ⟨rfl, fun _ haddr => (Option.mem_some.1 haddr).symm⟩
  | object | setIp | setHostname => cases h

/-- A call that asks the system something sets no address. -/
theorem ConnCall.asks_sets_nothing {req : SysRequest} (h : call.asks object = some (sock, req)) :
    (∀ q, ¬ call.Sets q) ∧ ∀ err s s' socks q, call.gives err s s' socks q = none := by
  cases call with
  | shutdown | listen | bind | connect => exact ⟨fun _ hsets => hsets, fun _ _ _ _ _ => rfl⟩
  | object | setIp | setHostname => cases h

/-- The request of a call for an object of the client. -/
theorem Attended.proper (h : Attended socks s) (hmem : sock ∈ socks) (hobject : s.net.sockets sock = some object)
    {req : SysRequest} (hasks : call.asks object = some (sock, req)) : Proper socks s.net call req := by
  obtain ⟨hfd, haddr⟩ := ConnCall.asks_own hasks
  refine ⟨sock, object, hasks, hmem, hobject, hfd, ?_, haddr, ?_⟩
  · by_cases hnone : object.fd = -1
    · exact .inl hnone
    · have hheld := NetSys.holds_fd hobject hnone
      refine .inr ⟨h.sound.custody.held sock _ hheld, fun other _ hother => ?_⟩
      exact h.sound.custody.unique other sock _ hother hheld
  · exact h.named sock object.addr (by rw [NetSys.addrOf, hobject, Option.map_some])

/-! ### Every call -/

theorem returnsUnless_onNet {α : Type} {m : NetM α} {p : Prop} {Q : α → ConnSys → Prop}
    (h : ReturnsUnless p .diverges m s.net fun value net => Q value { s with net := net }) :
    ReturnsUnless p .diverges (onNet m) s Q := by
  rcases h with h | ⟨hp, h⟩
  · exact .inl (returns_onNet.2 h)
  · refine .inr ⟨hp, ?_⟩
    have hget : Returns (get : ConnM ConnSys) s fun t s' => t = s ∧ s' = s := returns_get.2 ⟨rfl, rfl⟩
    rw [Fails] at h
    refine Returns.fails (hget.mono ?_)
    rintro t s' ⟨rfl, rfl⟩
    rw [Fails, StateT.run_bind, h]
    rfl

/-- The call changes nothing of the objects; if it was to set an address, it says in `*err` that it did not. -/
theorem Served.quiet {s' : ConnSys} (h : Attended socks s) {made : List SysRequest}
    (hrequests : s'.requests = made ++ s.requests) (hproper : ∀ req ∈ made, Proper socks s.net call req)
    (hnet : s'.net = { s.net with errs := s'.net.errs })
    (hgives : ∀ q ∈ socks, call.gives err s s' socks q = none)
    (hreported : ∀ q, call.Sets q → s'.net.errs.err ≠ .ok)
    (hlists : call.Frees err s → unreleased s'.lists = unreleased s.lists) : Served socks err call s socks s' where
  attended := by
    refine ⟨?_, ?_⟩
    · rw [hnet]
      exact h.sound.errs _ _
    · rw [hnet]
      exact h.named
  requests := ⟨made, hrequests, hproper⟩
  addrs q hq := by
    rw [hgives q hq, Option.none_or, hnet]
    rfl
  reported q hsets _ := hreported q hsets
  lists := hlists

/-- The call sets the address of the object. -/
theorem Served.addressed {s' : ConnSys} {addr : SockaddrIn} (h : Attended socks s) (hmem : sock ∈ socks)
    (hobject : s.net.sockets sock = some object) (hnamed : addr.Named)
    (hgives : ∀ q, call.gives err s s' socks q = if q = sock then some addr else none)
    (hsets : ∀ q, call.Sets q → q = sock)
    (hnet : s'.net = { s.net with
      sockets := Function.update s.net.sockets sock (some { object with addr := addr }) })
    (hrequests : s'.requests = s.requests)
    (hlists : call.Frees err s → unreleased s'.lists = unreleased s.lists) : Served socks err call s socks s' where
  attended := by
    have haddrs : s'.net.addrOf = Function.update s.net.addrOf sock (some addr) := by
      rw [hnet]
      exact NetSys.addrOf_update rfl rfl
    refine ⟨?_, ?_⟩
    · rw [hnet]
      refine h.sound.store hmem rfl rfl ?_ h.sound.numbers
      have hsame : Function.update s.net.holds sock object.descriptor = s.net.holds :=
        Function.update_eq_self_iff.2 (NetSys.holds_eq hobject).symm
      change Tenancy (Function.update s.net.holds sock object.descriptor) s.net.events
      rw [hsame]
      exact h.sound.custody
    · intro q other hother
      rw [haddrs] at hother
      by_cases hq : q = sock
      · subst hq
        rw [Function.update_self] at hother
        cases hother
        exact hnamed
      · rw [Function.update_of_ne hq] at hother
        exact h.named q other hother
  requests := ⟨[], hrequests, fun _ hreq => absurd hreq List.not_mem_nil⟩
  addrs q _ := by
    have haddrs : s'.net.addrOf = Function.update s.net.addrOf sock (some addr) := by
      rw [hnet]
      exact NetSys.addrOf_update rfl rfl
    rw [haddrs, hgives q]
    by_cases hq : q = sock
    · rw [if_pos hq, hq, Function.update_self, Option.some_or]
    · rw [if_neg hq, Function.update_of_ne hq, Option.none_or]
  reported q hcall hnone := by
    rw [hgives q, if_pos (hsets q hcall)] at hnone
    cases hnone
  lists := hlists

/-- The call ends with an error and changes nothing of the objects. -/
theorem Served.refused {s' : ConnSys} (h : Attended socks s) (hnet : s'.net = { s.net with errs := s'.net.errs })
    (herr : s'.net.errs.err ≠ .ok) (hgives : ∀ q, call.gives err s s' socks q = none)
    (hrequests : s'.requests = s.requests)
    (hlists : call.Frees err s → unreleased s'.lists = unreleased s.lists) : Served socks err call s socks s' :=
  Served.quiet h (hrequests.trans (List.nil_append s.requests).symm) (fun _ hreq => absurd hreq List.not_mem_nil) hnet
    (fun q _ => hgives q) (fun _ _ => herr) hlists

/-- The call asks the system for something, any number of times, and changes nothing beside `errno` and `*err`. -/
theorem Served.asked {s' : ConnSys} (h : Attended socks s) (hmem : sock ∈ socks)
    (hobject : s.net.sockets sock = some object) {req : SysRequest} (hasks : call.asks object = some (sock, req))
    (times : Nat) (hrequests : s'.requests = List.replicate times req ++ s.requests)
    (hnet : s'.net = { s.net with errs := s'.net.errs }) (hlists : s'.lists = s.lists) :
    Served socks err call s socks s' := by
  obtain ⟨hsets, hgives⟩ := ConnCall.asks_sets_nothing hasks
  refine Served.quiet h hrequests ?_ hnet (fun q _ => hgives err s s' socks q) (fun q hcall => absurd hcall (hsets q))
    fun _ => by rw [hlists]
  intro other hother
  rw [List.eq_of_mem_replicate hother]
  exact h.proper hmem hobject hasks

theorem Attended.has (h : Attended socks s) (hmem : sock ∈ socks) : ∃ object, s.net.Has sock object := by
  obtain ⟨object, hobject, hnull, hblock⟩ := h.sound.lookup hmem
  exact ⟨object, hobject, hnull, hblock⟩

theorem setIp_served (h : Attended socks s) (hmem : sock ∈ socks) (serverPort : UInt16) (serverIp : CStr) :
    Returns (jclNsSocketSetIp sock serverPort serverIp) s fun _ s' =>
      Served socks err (.setIp sock serverPort serverIp) s socks s' := by
  obtain ⟨object, hhas⟩ := h.has hmem
  -- What the call gives to each object, by what `inet_pton` answers.
  have hgives : ∀ s' addr, s.os.ipAddr serverPort serverIp = addr → ∀ q,
      (ConnCall.setIp sock serverPort serverIp).gives err s s' socks q = if q = sock then addr else none := by
    rintro s' addr rfl q
    rfl
  unfold jclNsSocketSetIp
  by_cases hport : serverPort ≤ 1024
  · have hnone : s.os.ipAddr serverPort serverIp = none := if_pos hport
    rw [if_pos hport]
    simp only [returns_bind, returns_onNet, returns_setErr, returns_pure]
    refine Served.refused h rfl (by simp) (fun q => ?_) rfl fun _ => rfl
    rw [hgives _ _ hnone, ite_self]
  · have hpton : s.os.ipAddr serverPort serverIp = (s.os.inetPton serverIp).map fun sinAddr =>
        { sinFamily := afInet, sinPort := htons serverPort, sinAddr := sinAddr } := if_neg hport
    rw [if_neg hport]
    simp only [returns_bind, returns_get]
    cases hanswer : s.os.inetPton serverIp with
    | none =>
        rw [hanswer, Option.map_none] at hpton
        simp only [returns_onNet, returns_setErr]
        refine Served.refused h rfl (by simp) (fun q => ?_) rfl fun _ => rfl
        rw [hgives _ _ hpton, ite_self]
    | some sinAddr =>
        rw [hanswer, Option.map_some] at hpton
        simp only [returns_onNet, returns_bind, returns_readSocket_of hhas, returns_writeSocket]
        refine ⟨hhas.nonnull, hhas.allocated, ?_⟩
        exact Served.addressed h hmem hhas.stored (.inr rfl) (hgives _ _ hpton) (fun _ hsets => hsets.symm) rfl rfl
          fun _ => rfl

theorem returns_jclGetaddrinfo {name port : CStr} {Q : Addr → ConnSys → Prop} : Returns (jclGetaddrinfo name port) s Q ↔
    match s.os.getaddrinfo s.calls name port (unreleased s.lists) with
    | .ok (list, info) => Q list { s with
        calls := s.calls + 1
        infos := Function.update s.infos list (some info)
        lists := .acquired list :: s.lists }
    | .error status => Q null { s with
        calls := s.calls + 1
        net := { s.net with errs := ((Wrappers.jclGetaddrinfo (.error status)).run s.net.errs).2 } } := by
  simp only [jclGetaddrinfo, returns_bind, returns_get, returns_set]
  cases s.os.getaddrinfo s.calls name port (unreleased s.lists) with
  | ok result =>
      obtain ⟨list, info⟩ := result
      simp only [returns_bind, returns_modify, returns_onNet]
      exact returns_wrapped
  | error status =>
      simp only [returns_onNet, returns_wrapped]
      cases status with
      | system errno => rfl
      | _ => rfl

theorem getaddrinfo_failed (status : GaiStatus) (errs : ErrState) :
    ((Wrappers.jclGetaddrinfo (.error status)).run errs).2.err ≠ .ok := by
  cases status with
  | again => exact (by decide : JclErr.again ≠ .ok)
  | fail => exact (by decide : JclErr.lanHostUnreach ≠ .ok)
  | noname => exact (by decide : JclErr.lanHostUnreach ≠ .ok)
  | system errno => exact (by decide : JclErr.sys ≠ .ok)
  | other code => exact (by decide : JclErr.getaddrinfo ≠ .ok)

/-- A check of `*err`. -/
theorem returns_onNet_check {exit rest : ConnM Unit} {Q : Unit → ConnSys → Prop} :
    Returns (do if ← onNet failed then exit else rest) s Q ↔
      if s.net.errs.err = .ok then Returns rest s Q else Returns exit s Q := by
  rw [returns_bind, returns_onNet, returns_failed]
  by_cases herr : s.net.errs.err = .ok
  · simp [herr]
  · simp [herr]

/-- A list that is freed at once. -/
theorem unreleased_freed (list : Addr) (lists : List (Entry Addr)) :
    unreleased (.released list :: .acquired list :: lists) = unreleased lists := List.erase_cons_head ..

/-- What `jcl_ns_socket_set_hostname` stores after `getaddrinfo` answered. -/
theorem ConnSys.hostAddr_answered (err : JclErr) {serverPort : UInt16} {hostname : CStr}
    {answer : Except GaiStatus (Addr × Addrinfo)} (hport : ¬ serverPort ≤ 1024)
    (hanswer : s.os.getaddrinfo s.calls hostname (portStr serverPort) (unreleased s.lists) = answer) :
    s.hostAddr err serverPort hostname = if err ≠ .ok then none else answer.toOption.bind fun result =>
      if result.2.aiFamily ≠ afInet.toNat ∨ result.2.aiAddrlen ≠ sizeofSockaddrIn then none
      else some result.2.aiAddr := by
  simp only [ConnSys.hostAddr, hport, hanswer, false_or]
  rfl

theorem setHostname_served (h : Attended socks s) (hmem : sock ∈ socks) (herr : s.net.errs.err = err)
    (serverPort : UInt16) (hostname : CStr) : Returns (jclNsSocketSetHostname sock serverPort hostname) s fun _ s' =>
      Served socks err (.setHostname sock serverPort hostname) s socks s' := by
  obtain ⟨object, hhas⟩ := h.has hmem
  -- What the call gives to each object, by what `getaddrinfo` answers.
  have hgives : ∀ s' addr, s.hostAddr err serverPort hostname = addr → ∀ q,
      (ConnCall.setHostname sock serverPort hostname).gives err s s' socks q = if q = sock then addr else none := by
    rintro s' addr rfl q
    rfl
  unfold jclNsSocketSetHostname
  by_cases hport : serverPort ≤ 1024
  · have hnone : s.hostAddr err serverPort hostname = none := if_pos (.inl hport)
    rw [if_pos hport]
    simp only [returns_bind, returns_onNet, returns_setErr, returns_pure]
    refine Served.refused h rfl (by simp) (fun q => ?_) rfl fun _ => rfl
    rw [hgives _ _ hnone, ite_self]
  · rw [if_neg hport, returns_bind, returns_jclGetaddrinfo]
    cases hresult : s.os.getaddrinfo s.calls hostname (portStr serverPort) (unreleased s.lists) with
    | error status =>
        have hnone : s.hostAddr err serverPort hostname = none := by
          rw [ConnSys.hostAddr_answered err hport hresult, Except.toOption, Option.bind_none, ite_self]
        refine returns_onNet_check.2 ?_
        rw [if_neg (getaddrinfo_failed status s.net.errs)]
        refine returns_pure.2 (Served.refused h rfl (getaddrinfo_failed status s.net.errs) (fun q => ?_) rfl
          fun _ => rfl)
        rw [hgives _ _ hnone, ite_self]
    | ok result =>
        obtain ⟨list, info⟩ := result
        have haddr := ConnSys.hostAddr_answered err hport hresult
        rw [Except.toOption, Option.bind_some] at haddr
        obtain ⟨hnull, -⟩ := s.os.getaddrinfo_fresh _ _ _ _ _ _ hresult
        have hfamily := s.os.getaddrinfo_family _ _ _ _ _ _ hresult
        refine returns_onNet_check.2 ?_
        by_cases hok : s.net.errs.err = .ok
        · rw [if_neg (not_not.2 (herr.symm.trans hok))] at haddr
          rw [if_pos hok]
          simp only [readInfo, hnull, if_false, returns_bind, returns_get, Function.update_self, returns_pure]
          by_cases hbad : info.aiFamily ≠ afInet.toNat ∨ info.aiAddrlen ≠ sizeofSockaddrIn
          · rw [if_pos hbad] at haddr
            simp only [hbad, if_true, freeaddrinfo, returns_bind, returns_modify, returns_onNet, returns_setErr,
              returns_pure]
            refine Served.refused h rfl (by simp) (fun q => ?_) rfl fun _ => unreleased_freed list s.lists
            rw [hgives _ _ haddr, ite_self]
          · rw [if_neg hbad] at haddr
            simp only [hbad, if_false, freeaddrinfo, returns_bind, returns_modify, returns_onNet,
              returns_readSocket_of hhas, returns_writeSocket]
            refine ⟨hhas.nonnull, hhas.allocated, ?_⟩
            have hnamed : info.aiAddr.sinFamily = afInet := by
              have hsame := (not_not.1 (not_or.1 hbad).1).symm.trans hfamily
              exact UInt16.toNat_inj.1 (Int.ofNat_inj.1 hsame).symm
            exact Served.addressed h hmem hhas.stored (.inr hnamed) (hgives _ _ haddr) (fun _ hsets => hsets.symm) rfl
              rfl fun _ => unreleased_freed list s.lists
        · rw [if_pos fun hpending => hok (herr.trans hpending)] at haddr
          rw [if_neg hok]
          refine returns_pure.2 (Served.refused h rfl hok (fun q => ?_) rfl fun hfrees => ?_)
          · rw [hgives _ _ haddr, ite_self]
          · exact absurd (herr.trans (hfrees (UInt16.not_le.1 hport) list info hresult)) hok

/-- The last of the interruptions. -/
theorem exists_answer_of_not_interrupted {req : SysRequest} {rounds : Nat} (h : ¬ InterruptedFor s req rounds) :
    ∃ again < rounds, InterruptedFor s req again ∧ s.os.answer (s.calls + again) req ≠ .error .eintr := by
  induction rounds with
  | zero => exact absurd (fun i hi => absurd hi (Nat.not_lt_zero i)) h
  | succ rounds ih =>
      by_cases hbefore : InterruptedFor s req rounds
      · refine ⟨rounds, Nat.lt_succ_self rounds, hbefore, fun hlast => h fun i hi => ?_⟩
        rcases Nat.lt_succ_iff_lt_or_eq.1 hi with hi | rfl
        · exact hbefore i hi
        · exact hlast
      · obtain ⟨again, hagain, hinter, hanswer⟩ := ih hbefore
        exact ⟨again, Nat.lt_succ_of_lt hagain, hinter, hanswer⟩

theorem connect_served (h : Attended socks s) (hmem : sock ∈ socks) (rounds : Nat) :
    ReturnsUnless ((ConnCall.connect sock rounds).Waits s) .diverges (jclNsSocketConnect sock rounds) s fun _ s' =>
      Served socks err (.connect sock rounds) s socks s' := by
  obtain ⟨object, hhas⟩ := h.has hmem
  by_cases hinter : InterruptedFor s (connectRequest object) rounds
  · refine .inr ⟨?_, retryLoop_diverges connect_makes rfl hhas hinter⟩
    intro other hother
    rw [hhas.stored] at hother
    cases hother
    exact hinter
  · obtain ⟨again, hagain, hbefore, hanswer⟩ := exists_answer_of_not_interrupted hinter
    refine .inl ((retryLoop_repeats connect_makes connectErr_inter hhas hagain hbefore hanswer).mono ?_)
    exact fun _ s' hrepeated =>
      Served.asked h hmem hhas.stored rfl (again + 1) hrepeated.requests hrepeated.net hrepeated.lists

theorem bind_served (h : Attended socks s) (hmem : sock ∈ socks) (rounds : Nat) :
    ReturnsUnless ((ConnCall.bind sock rounds).Waits s) .diverges (jclNsSocketBind sock rounds) s fun _ s' =>
      Served socks err (.bind sock rounds) s socks s' := by
  obtain ⟨object, hhas⟩ := h.has hmem
  rcases Nat.eq_zero_or_pos rounds with rfl | hrounds
  · exact .inr ⟨rfl, rfl⟩
  · have hdone := retryLoop_done bind_makes hhas hrounds fun errno _ => by simp [Wrappers.defaultErr]
    exact .inl (hdone.mono fun _ s' hrepeated =>
      Served.asked h hmem hhas.stored rfl 1 hrepeated.requests hrepeated.net hrepeated.lists)

/-- A request that is made once. -/
theorem answered_served (h : Attended socks s) (hmem : sock ∈ socks) (hobject : s.net.sockets sock = some object)
    (switch : Errno → JclErr) {req : SysRequest} (hasks : call.asks object = some (sock, req)) :
    Served socks err call s socks (s.answered switch req) :=
  Served.asked h hmem hobject hasks 1 rfl rfl rfl

/-- Every call, whatever is answered. -/
theorem Attended.step (h : Attended socks s) (hallowed : call.Allowed socks) :
    ReturnsUnless (call.Waits s) .diverges (performConn err socks call) s fun socks' s' =>
      Served socks err call s socks' s' := by
  have hset : Attended socks { s with net := { s.net with errs := { s.net.errs with err := err } } } :=
    ⟨h.sound.errs _ _, h.named⟩
  have herr : (ErrState.mk s.net.errs.errno err).err = err := rfl
  -- Whatever the call does from there on it does from `s` on.
  have hfrom : ∀ {socks' : List Addr} {s' : ConnSys},
      Served socks err call { s with net := { s.net with errs := { s.net.errs with err := err } } } socks' s' →
        Served socks err call s socks' s' := by
    intro socks' s' h'
    obtain ⟨made, hrequests, hproper⟩ := h'.requests
    refine ⟨h'.attended, ⟨made, hrequests, fun req hreq => ?_⟩, ?_, ?_, fun hfrees => h'.lists ?_⟩
    · obtain ⟨sock, object, hfor⟩ := hproper req hreq
      exact ⟨sock, object, hfor.asks, hfor.mem, hfor.stored, hfor.fd, hfor.live, hfor.addr, hfor.named⟩
    · cases call with
      | object call => cases call with | _ => exact h'.addrs
      | shutdown | setIp | setHostname | bind | listen | connect => exact h'.addrs
    · cases call with
      | setIp | setHostname => exact h'.reported
      | object | shutdown | bind | listen | connect => exact fun _ hsets => absurd hsets id
    · cases call with
      | setHostname sock serverPort hostname => exact hfrees
      | object | shutdown | setIp | bind | listen | connect => trivial
  refine ReturnsUnless.bind_of (R := fun _ s₁ =>
    s₁ = { s with net := { s.net with errs := { s.net.errs with err := err } } })
    (.inl (returns_onNet.2 (returns_setErr.2 rfl))) ?_
  rintro _ s₁ rfl
  cases call with
  | object call =>
      refine returnsUnless_onNet ((SoundBy.step hset.sound hallowed fun sock hmem _ =>
        open_tenancy (hset.sound.errs _ _) hmem).mono ?_)
      rintro socks' net ⟨hsound, haddrs⟩
      exact hfrom ⟨⟨hsound, haddrs.named hset.named⟩, ⟨[], rfl, fun _ hreq => absurd hreq List.not_mem_nil⟩,
        haddrs.same, fun _ hsets => absurd hsets id, fun _ => rfl⟩
  | shutdown sock =>
      obtain ⟨object, hhas⟩ := hset.has hallowed
      left
      simp only [jclNsSocketShutdown, returns_bind, returns_onNet, returns_readSocket_of hhas, returns_jclShutdown,
        returns_pure]
      exact hfrom (answered_served hset hallowed hhas.stored _ rfl)
  | setIp sock serverPort serverIp =>
      exact .inl (Returns.bind_of (setIp_served hset hallowed serverPort serverIp) fun _ s₂ h₂ =>
        returns_pure.2 (hfrom h₂))
  | setHostname sock serverPort hostname =>
      exact .inl (Returns.bind_of (setHostname_served hset hallowed herr serverPort hostname) fun _ s₂ h₂ =>
        returns_pure.2 (hfrom h₂))
  | bind sock rounds =>
      exact ReturnsUnless.bind_of (bind_served hset hallowed rounds) fun _ s₂ h₂ => .inl (returns_pure.2 (hfrom h₂))
  | listen sock =>
      obtain ⟨object, hhas⟩ := hset.has hallowed
      left
      simp only [jclNsSocketListen, returns_bind, returns_onNet, returns_readSocket_of hhas, returns_jclListen,
        returns_pure]
      exact hfrom (answered_served hset hallowed hhas.stored _ rfl)
  | connect sock rounds =>
      exact ReturnsUnless.bind_of (connect_served hset hallowed rounds) fun _ s₂ h₂ =>
        .inl (returns_pure.2 (hfrom h₂))

/-! ### Runs -/

theorem Attended.reached {calls : List (JclErr × ConnCall)} {st : ConnSys × List Addr} (hfresh : start.net.Fresh)
    (run : (connectionSystem start).Reaches calls st) : Attended st.2 st.1 := by
  refine run.invariant (P := fun st => Attended st.2 st.1) ?_ ?_
  · rintro _ rfl
    have hsound := hfresh.sound
    refine ⟨⟨hsound.nodup, hsound.stored, hsound.allocated, hsound.custody.tenancy, hsound.numbers⟩, ?_⟩
    intro sock addr haddr
    rw [NetSys.addrOf, hfresh.sockets] at haddr
    cases haddr
  · rintro st ⟨err, call⟩ st' h ⟨hallowed, hrun⟩
    exact ((h.step hallowed).det hrun).attended

/-- In every run only descriptors that are open are closed, no two objects hold one descriptor, and every call returns,
    unless it waits, having asked for nothing but its own request, with what its own object holds. -/
theorem connections_exclusive (hfresh : start.net.Fresh) {calls : List (JclErr × ConnCall)} {st : ConnSys × List Addr}
    (run : (connectionSystem start).Reaches calls st) :
    Exclusive st.2 st.1.net ∧ ∀ (err : JclErr) (call : ConnCall), call.Allowed st.2 →
      ReturnsUnless (call.Waits st.1) .diverges (performConn err st.2 call) st.1 fun socks s =>
        Exclusive socks s.net ∧
          ∃ made, s.requests = made ++ st.1.requests ∧ ∀ req ∈ made, Proper st.2 st.1.net call req := by
  have h := Attended.reached hfresh run
  refine ⟨h.sound.exclusive, fun err call hallowed => (h.step hallowed).mono ?_⟩
  exact fun socks s hserved => ⟨hserved.attended.sound.exclusive, hserved.requests⟩

/-- A socket object is created, and its address is set. -/
def createdConnSys : ConnSys := stateAfter (performConn .ok [] (.object .create)) (sampleConnSys sampleSys)
def namedConnSys : ConnSys :=
  stateAfter (performConn .ok [4096] (.setHostname 4096 8080 "host".toUTF8.toList)) createdConnSys

theorem create_run :
    (performConn .ok [] (.object .create)).run (sampleConnSys sampleSys) = .ok ([4096], createdConnSys) := by
  have hresult : resultOf (performConn .ok [] (.object .create)) (sampleConnSys sampleSys) = .ok [4096] := by
    decide +kernel
  exact run_of_resultOf hresult

theorem namedConnSys_reached : (connectionSystem (sampleConnSys sampleSys)).Reaches
    [(.ok, .object .create), (.ok, .setHostname 4096 8080 "host".toUTF8.toList)] (namedConnSys, [4096]) := by
  have hresult : resultOf (performConn .ok [4096] (.setHostname 4096 8080 "host".toUTF8.toList)) createdConnSys =
      .ok [4096] := by decide +kernel
  have hcreate : (connectionSystem (sampleConnSys sampleSys)).step (sampleConnSys sampleSys, [])
      (.ok, .object .create) (createdConnSys, [4096]) := ⟨trivial, create_run⟩
  have hset : (connectionSystem (sampleConnSys sampleSys)).step (createdConnSys, [4096])
      (.ok, .setHostname 4096 8080 "host".toUTF8.toList) (namedConnSys, [4096]) :=
    ⟨List.mem_cons_self, run_of_resultOf hresult⟩
  exact ((System.Reaches.init rfl).step hcreate).step hset

/-- Before the object with its address is connected. -/
theorem connections_exclusive_connect : Exclusive [4096] namedConnSys.net ∧
    ReturnsUnless ((ConnCall.connect 4096 3).Waits namedConnSys) .diverges
      (performConn .ok [4096] (.connect 4096 3)) namedConnSys fun socks s => Exclusive socks s.net ∧
        ∃ made, s.requests = made ++ namedConnSys.requests ∧
          ∀ req ∈ made, Proper [4096] namedConnSys.net (.connect 4096 3) req := by
  have hfresh : (sampleConnSys sampleSys).net.Fresh := sampleSys_fresh
  obtain ⟨hexclusive, hcalls⟩ := connections_exclusive hfresh namedConnSys_reached
  exact ⟨hexclusive, hcalls .ok (.connect 4096 3) List.mem_cons_self⟩

/-- An object has an address, and what is none has none. -/
theorem Attended.addrOf_eq_none_iff (h : Attended socks s) : s.net.addrOf sock = none ↔ sock ∉ socks := by
  rw [h.sound.stored sock]
  constructor
  · rintro hnone ⟨object, hobject⟩
    rw [NetSys.addrOf, hobject, Option.map_some] at hnone
    cases hnone
  · exact NetSys.addrOf_eq_none

/-- After a call the addresses are those that it gave, and the others as they were recorded. -/
theorem Served.recorded {socks' : List Addr} {s' : ConnSys} {book : Addr → Option SockaddrIn}
    (hserved : Served socks err call s socks' s') (h : Attended socks s)
    (hbook : ∀ sock ∈ socks, s.net.addrOf sock = book sock) :
    ∀ sock ∈ socks', s'.net.addrOf sock = (call.gives err s s' socks sock).or (book sock) := by
  intro sock hmem
  rw [hserved.addrs sock hmem]
  by_cases hold : sock ∈ socks
  · rw [hbook sock hold]
  · -- The object is new, so that its address was given by this call.
    have haddr := hserved.addrs sock hmem
    rw [h.addrOf_eq_none_iff.2 hold, Option.or_none] at haddr
    obtain ⟨addr, hgiven⟩ := Option.ne_none_iff_exists'.1 fun hnone =>
      hserved.attended.addrOf_eq_none_iff.1 (haddr.trans hnone) hmem
    rw [hgiven, Option.some_or, Option.some_or]

/-- In every run each object has the address that the last call gave to it, of those that gave it one; and the next call
    keeps it so. A call that is to set an address and sets none says so in `*err`. -/
theorem addresses_kept (hfresh : start.net.Fresh) {calls : List (JclErr × ConnCall)} {st : ConnSys × List Addr}
    (run : (connectionSystem start).Reaches calls st) :
    ∃ book, (addressSystem start).Reaches calls (st, book) ∧ (∀ sock ∈ st.2, st.1.net.addrOf sock = book sock) ∧
      st.1.net.Named ∧ ∀ (err : JclErr) (call : ConnCall), call.Allowed st.2 →
        ReturnsUnless (call.Waits st.1) .diverges (performConn err st.2 call) st.1 fun socks s =>
          (∀ sock ∈ socks, s.net.addrOf sock = (call.gives err st.1 s st.2 sock).or (book sock)) ∧
            ∀ sock, call.Sets sock → call.gives err st.1 s st.2 sock = none → s.net.errs.err ≠ .ok := by
  obtain ⟨book, hrun⟩ := run.recorded (fun _ => none) fun st l st' book sock =>
    (l.2.gives l.1 st.1 st'.1 st.2 sock).or (book sock)
  have h := Attended.reached hfresh run
  have hbook : ∀ sock ∈ st.2, st.1.net.addrOf sock = book sock := by
    refine (hrun.invariant (P := fun r => Attended r.1.2 r.1.1 ∧ ∀ sock ∈ r.1.2, r.1.1.net.addrOf sock = r.2 sock)
      ?_ ?_).2
    · rintro ⟨_, _⟩ ⟨rfl, rfl⟩
      exact ⟨Attended.reached hfresh (.init rfl), fun sock hmem => absurd hmem List.not_mem_nil⟩
    · rintro ⟨st, book⟩ ⟨err, call⟩ ⟨st', book'⟩ ⟨h, hbook⟩ ⟨⟨hallowed, hcall⟩, hnext⟩
      have hserved := (h.step hallowed).det hcall
      refine ⟨hserved.attended, fun sock hmem => ?_⟩
      exact (hserved.recorded h hbook sock hmem).trans (congrFun hnext sock).symm
  refine ⟨book, hrun, hbook, h.named, fun err call hallowed => (h.step hallowed).mono ?_⟩
  exact fun socks s hserved => ⟨hserved.recorded h hbook, hserved.reported⟩

/-- The address that was set stays when the object is connected. -/
theorem addresses_kept_connect : ∃ book, (addressSystem (sampleConnSys sampleSys)).Reaches
    [(.ok, .object .create), (.ok, .setHostname 4096 8080 "host".toUTF8.toList)] ((namedConnSys, [4096]), book) ∧
    book 4096 = some { sinFamily := afInet, sinPort := htons 8080, sinAddr := 16777343 } ∧
    ReturnsUnless ((ConnCall.connect 4096 3).Waits namedConnSys) .diverges
      (performConn .ok [4096] (.connect 4096 3)) namedConnSys fun socks s =>
        ∀ sock ∈ socks, s.net.addrOf sock = book sock := by
  have hfresh : (sampleConnSys sampleSys).net.Fresh := sampleSys_fresh
  obtain ⟨book, hrun, hbook, -, hcalls⟩ := addresses_kept hfresh namedConnSys_reached
  have haddr : namedConnSys.net.addrOf 4096 =
      some { sinFamily := afInet, sinPort := htons 8080, sinAddr := 16777343 } := by decide +kernel
  refine ⟨book, hrun, (hbook 4096 List.mem_cons_self).symm.trans haddr, ?_⟩
  exact (hcalls .ok (.connect 4096 3) List.mem_cons_self).mono fun _ _ hafter => hafter.1

/-- The runs in which no list comes while an error is pending. -/
def freeingSystem (start : ConnSys) : System (ConnSys × List Addr) (JclErr × ConnCall) :=
  (connectionSystem start).restrict fun st l => l.2.Frees l.1 st.1

/-- A list that comes while an error is pending is not freed. -/
theorem step_leaks (hnot : ¬ call.Frees err s) :
    Returns (performConn err socks call) s fun _ s' => unreleased s'.lists ≠ [] := by
  cases call with
  | setHostname sock serverPort hostname =>
      simp only [ConnCall.Frees, not_forall] at hnot
      obtain ⟨hport, list, info, hresult, herr⟩ := hnot
      refine returns_bind.2 (returns_onNet.2 (returns_setErr.2 (returns_bind.2 ?_)))
      unfold jclNsSocketSetHostname
      rw [if_neg (UInt16.not_le.2 hport), returns_bind, returns_jclGetaddrinfo]
      simp only [hresult]
      refine returns_onNet_check.2 ?_
      rw [if_neg herr]
      exact returns_pure.2 (returns_pure.2 (List.cons_ne_nil _ _))
  | object | shutdown | setIp | bind | listen | connect => exact absurd trivial hnot

/-- Where no list comes while an error is pending every list is freed, and the next call keeps it so exactly where none
    comes then either. -/
theorem lists_freed_iff (hfresh : start.net.Fresh) (hlists : start.lists = []) {calls : List (JclErr × ConnCall)}
    {st : ConnSys × List Addr} (run : (freeingSystem start).Reaches calls st) :
    unreleased st.1.lists = [] ∧ ∀ (err : JclErr) (call : ConnCall), call.Allowed st.2 →
      (ReturnsUnless (call.Waits st.1) .diverges (performConn err st.2 call) st.1
          (fun _ s => unreleased s.lists = []) ↔ call.Frees err st.1) := by
  obtain ⟨h, hfreed⟩ : Attended st.2 st.1 ∧ unreleased st.1.lists = [] := by
    refine run.invariant (P := fun st => Attended st.2 st.1 ∧ unreleased st.1.lists = []) ?_ ?_
    · rintro _ rfl
      refine ⟨Attended.reached hfresh (.init rfl), ?_⟩
      change unreleased start.lists = []
      rw [hlists]
      rfl
    · rintro st ⟨err, call⟩ st' ⟨h, hfreed⟩ ⟨hfrees, hallowed, hrun⟩
      have hserved := (h.step hallowed).det hrun
      exact ⟨hserved.attended, (hserved.lists hfrees).trans hfreed⟩
  refine ⟨hfreed, fun err call hallowed => ⟨fun hkept => ?_, fun hfrees => (h.step hallowed).mono ?_⟩⟩
  · by_contra hnot
    obtain ⟨socks, s, hrun, hleaked⟩ := step_leaks hnot
    exact hleaked (hkept.det hrun)
  · exact fun socks s hserved => (hserved.lists hfrees).trans hfreed

/-- With an error pending the list of the next call is not freed. -/
theorem lists_freed_pending : unreleased createdConnSys.lists = [] ∧
    (ReturnsUnless ((ConnCall.setHostname 4096 8080 "host".toUTF8.toList).Waits createdConnSys) .diverges
        (performConn .sys [4096] (.setHostname 4096 8080 "host".toUTF8.toList)) createdConnSys
        (fun _ s => unreleased s.lists = []) ↔
      (ConnCall.setHostname 4096 8080 "host".toUTF8.toList).Frees .sys createdConnSys) ∧
    ¬ (ConnCall.setHostname 4096 8080 "host".toUTF8.toList).Frees .sys createdConnSys := by
  have hcreate : (freeingSystem (sampleConnSys sampleSys)).step (sampleConnSys sampleSys, [])
      (.ok, .object .create) (createdConnSys, [4096]) := ⟨trivial, trivial, create_run⟩
  have hfresh : (sampleConnSys sampleSys).net.Fresh := sampleSys_fresh
  obtain ⟨hfreed, hcalls⟩ := lists_freed_iff hfresh rfl ((System.Reaches.init rfl).step hcreate)
  refine ⟨hfreed, hcalls .sys (.setHostname 4096 8080 "host".toUTF8.toList) List.mem_cons_self, fun hfrees => ?_⟩
  have hresult : createdConnSys.os.getaddrinfo createdConnSys.calls "host".toUTF8.toList (portStr 8080)
      (unreleased createdConnSys.lists) = .ok (8192, { aiFamily := 2, aiAddrlen := sizeofSockaddrIn, aiAddr :=
        { sinFamily := afInet, sinPort := htons 8080, sinAddr := 16777343 } }) := by decide +kernel
  exact absurd (hfrees (by decide) _ _ hresult) (by decide)

end Jcl.Sockets
