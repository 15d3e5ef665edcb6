/-
Module: Jcl.Proofs.SocketConnections
Layer: Proofs
Purpose: What the functions that make a connection ask of the system. `jcl_ns_socket_connect` repeats an interrupted call
  with the same arguments until it is not interrupted; `jcl_ns_socket_bind` has the same loop, but its wrapper reports
  an interruption as another error, and the loop runs once.
Imports: Jcl.SocketConnections, Jcl.Proofs.SocketRuns
Trusted boundary: human-reviewed spec (Repeated, InterruptedFor)
Main exports: returns_onNet, returns_request, Repeated, InterruptedFor, interrupted_requests
-/
import Jcl.SocketConnections
import Jcl.Proofs.SocketRuns

namespace Jcl.Sockets

open Ledger (Entry unreleased)
open Wrappers (ErrState ErrM GaiStatus)

variable {s s' : ConnSys} {sock : Addr} {object : NsSocket} {switch : Errno → JclErr} {req : SysRequest}

/-! ### Symbolic execution -/

@[simp] theorem returns_onNet {α : Type} {call : NetM α} {Q : α → ConnSys → Prop} :
    Returns (onNet call) s Q ↔ Returns call s.net fun value net => Q value { s with net := net } := by
  simp only [onNet, returns_bind, returns_get, returns_lift]
  constructor
  · rintro ⟨⟨value, net⟩, hrun, hQ⟩
    simp only [returns_set, returns_pure] at hQ
    exact ⟨value, net, hrun, hQ⟩
  · rintro ⟨value, net, hrun, hQ⟩
    refine ⟨(value, net), hrun, ?_⟩
    simp only [returns_set, returns_pure]
    exact hQ

/-- `errno` and `*err` after a wrapper with this `switch`. -/
def answeredErrs (switch : Errno → JclErr) (outcome : Except Errno Unit) (errs : ErrState) : ErrState :=
  match outcome with
  | .ok _ => errs
  | .error errno => { errno := errno, err := switch errno }

/-- The system after a call on a descriptor was answered. -/
def ConnSys.answered (s : ConnSys) (switch : Errno → JclErr) (req : SysRequest) : ConnSys :=
  { s with
    calls := s.calls + 1
    requests := req :: s.requests
    net := { s.net with errs := answeredErrs switch (s.os.answer s.calls req) s.net.errs } }

theorem returns_request {wrapper : Except Errno Unit → ErrM Unit}
    (hwrapper : ∀ outcome, wrapper outcome = Wrappers.onErrno switch () (Wrappers.sysCall outcome))
    {Q : Unit → ConnSys → Prop} : Returns (request wrapper req) s Q ↔ Q () (s.answered switch req) := by
  simp only [request, hwrapper, returns_bind, returns_get, returns_set, returns_onNet, ConnSys.answered]
  cases s.os.answer s.calls req with
  | ok value => exact returns_wrapped_ok
  | error errno => exact returns_wrapped_error

@[simp] theorem returns_jclShutdown {sockFd how : Int} {Q : Unit → ConnSys → Prop} :
    Returns (jclShutdown sockFd how) s Q ↔ Q () (s.answered Wrappers.defaultErr (.shutdown sockFd how)) :=
  returns_request fun _ => rfl

@[simp] theorem returns_jclListen {sockFd : Int} {backlog : Nat} {Q : Unit → ConnSys → Prop} :
    Returns (jclListen sockFd backlog) s Q ↔ Q () (s.answered Wrappers.defaultErr (.listen sockFd backlog)) :=
  returns_request fun _ => rfl

/-! ### The retry loop -/

/-- The system after `*err` was reset where it says that a call was interrupted. -/
def ConnSys.reset (s : ConnSys) : ConnSys :=
  { s with net := { s.net with errs := { s.net.errs with
    err := if s.net.errs.err = .inter then .ok else s.net.errs.err } } }

/-- The loop makes calls of this kind, with this `switch` in their wrapper. -/
def Makes (call : NsSocket → ConnM Unit) (switch : Errno → JclErr) (reqOf : NsSocket → SysRequest) : Prop :=
  ∀ object s Q, Returns (call object) s Q ↔ Q () (s.answered switch (reqOf object))

variable {call : NsSocket → ConnM Unit} {reqOf : NsSocket → SysRequest}

/-- The socket object can be accessed. -/
structure NetSys.Has (s : NetSys) (sock : Addr) (object : NsSocket) : Prop where
  stored : s.sockets sock = some object
  nonnull : sock ≠ null
  allocated : sock ∈ s.blocks

theorem returns_readSocket_of {net : NetSys} (h : net.Has sock object) {Q : NsSocket → NetSys → Prop} :
    Returns (readSocket sock) net Q ↔ Q object net := by
  simp [h.stored, h.nonnull, h.allocated]

theorem NetSys.Has.answered (h : s.net.Has sock object) :
    (s.reset.answered switch req).net.Has sock object := ⟨h.stored, h.nonnull, h.allocated⟩

theorem returns_retryRound (hcall : Makes call switch reqOf) (h : s.net.Has sock object) {Q : Unit → ConnSys → Prop} :
    Returns (retryRound call sock) s Q ↔ Q () (s.reset.answered switch (reqOf object)) := by
  have hreset : Returns (retryRound call sock) s Q ↔
      Returns (do call (← onNet (readSocket sock))) s.reset Q := by
    unfold retryRound
    by_cases hinter : s.net.errs.err = .inter
    · simp [hinter, ConnSys.reset]
    · simp [hinter, ConnSys.reset]
  have hhas : s.reset.net.Has sock object := ⟨h.stored, h.nonnull, h.allocated⟩
  rw [hreset, returns_bind, returns_onNet, returns_readSocket_of hhas]
  exact hcall object _ _

/-- What `*err` is after a call that was made `again` times again. -/
def lastErr (switch : Errno → JclErr) (err : JclErr) (again : Nat) : Except Errno Unit → JclErr
  | .ok _ => if again = 0 ∧ err ≠ .inter then err else .ok
  | .error errno => switch errno

/-- The request was made once and `again` times again, the answer to the last one is in `*err`, and beside that nothing
    changed. -/
structure Repeated (switch : Errno → JclErr) (req : SysRequest) (again : Nat) (s s' : ConnSys) : Prop where
  requests : s'.requests = List.replicate (again + 1) req ++ s.requests
  calls : s'.calls = s.calls + (again + 1)
  err : s'.net.errs.err = lastErr switch s.net.errs.err again (s.os.answer (s.calls + again) req)
  os : s'.os = s.os
  infos : s'.infos = s.infos
  lists : s'.lists = s.lists
  net : s'.net = { s.net with errs := s'.net.errs }

/-- The next answers to the request are interruptions, so many of them. -/
def InterruptedFor (s : ConnSys) (req : SysRequest) (times : Nat) : Prop :=
  ∀ i < times, s.os.answer (s.calls + i) req = .error .eintr

theorem ConnSys.answered_calls_add (s : ConnSys) (switch : Errno → JclErr) (req : SysRequest) (i : Nat) :
    (s.reset.answered switch req).calls + i = s.calls + (i + 1) := by
  change s.calls + 1 + i = s.calls + (i + 1)
  omega

/-- The interruptions after the first one. -/
theorem InterruptedFor.tail {times : Nat} (h : InterruptedFor s req (times + 1)) :
    InterruptedFor (s.reset.answered switch req) req times := by
  intro i hi
  rw [s.answered_calls_add]
  exact h (i + 1) (Nat.succ_lt_succ hi)

/-- A round that is not repeated. -/
theorem repeated_zero (s : ConnSys) (switch : Errno → JclErr) (req : SysRequest) :
    Repeated switch req 0 s (s.reset.answered switch req) where
  requests := rfl
  calls := rfl
  err := by
    change (answeredErrs switch (s.os.answer s.calls req) s.reset.net.errs).err =
      lastErr switch s.net.errs.err 0 (s.os.answer s.calls req)
    cases s.os.answer s.calls req with
    | error errno => rfl
    | ok value =>
        by_cases hinter : s.net.errs.err = .inter
        · simp [answeredErrs, lastErr, ConnSys.reset, hinter]
        · simp [answeredErrs, lastErr, ConnSys.reset, hinter]
  os := rfl
  infos := rfl
  lists := rfl
  net := rfl

/-- After an interruption `*err` says so. -/
theorem interrupted_err (hinter : switch .eintr = .inter) (hanswer : s.os.answer s.calls req = .error .eintr) :
    (s.reset.answered switch req).net.errs.err = .inter := by
  change (answeredErrs switch (s.os.answer s.calls req) s.reset.net.errs).err = .inter
  rw [hanswer]
  exact hinter

/-- A round that was interrupted, and the others. -/
theorem Repeated.succ {again : Nat} (hinter : switch .eintr = .inter)
    (hanswer : s.os.answer s.calls req = .error .eintr)
    (h : Repeated switch req again (s.reset.answered switch req) s') : Repeated switch req (again + 1) s s' where
  requests := by
    rw [h.requests, List.replicate_succ' (n := again + 1), List.append_assoc]
    rfl
  calls := by rw [h.calls, s.answered_calls_add]
  err := by
    rw [h.err, interrupted_err hinter hanswer, s.answered_calls_add]
    change lastErr switch .inter again (s.os.answer (s.calls + (again + 1)) req) = _
    cases s.os.answer (s.calls + (again + 1)) req with
    | error errno => rfl
    | ok value => simp [lastErr]
  os := h.os
  infos := h.infos
  lists := h.lists
  net := h.net

theorem lastErr_zero_ne_inter {err : JclErr} {outcome : Except Errno Unit}
    (h : ∀ errno, outcome = .error errno → switch errno ≠ .inter) : lastErr switch err 0 outcome ≠ .inter := by
  cases outcome with
  | error errno => exact h errno rfl
  | ok value =>
      simp only [lastErr, true_and]
      split
      · case isTrue herr => exact herr
      · simp

/-- The loop ends after a round that was not interrupted. -/
theorem retryLoop_done (hcall : Makes call switch reqOf) (h : s.net.Has sock object) {rounds : Nat}
    (hrounds : 0 < rounds)
    (hlast : ∀ errno, s.os.answer s.calls (reqOf object) = .error errno → switch errno ≠ .inter) :
    Returns (retryLoop call sock rounds) s fun _ s' => Repeated switch (reqOf object) 0 s s' := by
  obtain ⟨rounds, rfl⟩ := Nat.exists_eq_add_one_of_ne_zero (Nat.ne_of_gt hrounds)
  have hone := repeated_zero s switch (reqOf object)
  have hdone : (s.reset.answered switch (reqOf object)).net.errs.err ≠ .inter := by
    rw [hone.err]
    exact lastErr_zero_ne_inter hlast
  refine returns_bind.2 ((returns_retryRound hcall h).2 ?_)
  simp only [returns_bind, returns_onNet, returns_getErr, hdone, if_false, returns_pure]
  exact hone

/-- A call that can be interrupted is repeated as long as it is, or until no rounds are left. -/
theorem retryLoop_repeats (hcall : Makes call switch reqOf) (hswitch : ∀ errno, switch errno = .inter ↔ errno = .eintr)
    (h : s.net.Has sock object) {again rounds : Nat} (hrounds : again < rounds)
    (hinter : InterruptedFor s (reqOf object) again)
    (hlast : s.os.answer (s.calls + again) (reqOf object) ≠ .error .eintr) :
    Returns (retryLoop call sock rounds) s fun _ s' => Repeated switch (reqOf object) again s s' := by
  induction again generalizing s rounds with
  | zero =>
      refine retryLoop_done hcall h hrounds fun errno hanswer herr => hlast ?_
      rw [Nat.add_zero, hanswer, (hswitch errno).1 herr]
  | succ again ih =>
      obtain ⟨rounds, rfl⟩ := Nat.exists_eq_add_one_of_ne_zero (Nat.ne_of_gt (Nat.zero_lt_of_lt hrounds))
      have hfirst : s.os.answer s.calls (reqOf object) = .error .eintr := hinter 0 (Nat.succ_pos again)
      have herr := interrupted_err ((hswitch .eintr).2 rfl) hfirst
      refine returns_bind.2 ((returns_retryRound hcall h).2 ?_)
      simp only [returns_bind, returns_onNet, returns_getErr, herr, if_true]
      rw [← s.answered_calls_add switch] at hlast
      refine (ih h.answered (Nat.lt_of_succ_lt_succ hrounds) hinter.tail hlast).mono ?_
      exact fun _ s' hrest => hrest.succ ((hswitch .eintr).2 rfl) hfirst

/-- Where it is interrupted all the time, no number of rounds suffices. -/
theorem retryLoop_diverges (hcall : Makes call switch reqOf) (hswitch : switch .eintr = .inter)
    (h : s.net.Has sock object) {rounds : Nat} (hinter : InterruptedFor s (reqOf object) rounds) :
    Fails (retryLoop call sock rounds) s .diverges := by
  induction rounds generalizing s with
  | zero => rfl
  | succ rounds ih =>
      have hfirst : s.os.answer s.calls (reqOf object) = .error .eintr := hinter 0 (Nat.succ_pos rounds)
      refine Returns.fails ((returns_retryRound hcall h).2 (Returns.fails ?_))
      simp only [returns_onNet, returns_getErr, interrupted_err hswitch hfirst, if_true]
      exact ih h.answered hinter.tail

/-! ### Connecting and binding -/

theorem connectErr_inter (errno : Errno) : Wrappers.connectErr errno = .inter ↔ errno = .eintr := by
  cases errno with
  | eintr => simp [Wrappers.connectErr]
  | _ => simp [Wrappers.connectErr]

/-- The request of `jcl_ns_socket_connect`. -/
def connectRequest (object : NsSocket) : SysRequest := .connect object.fd object.addr sizeofSockaddrIn

/-- The request of `jcl_ns_socket_bind`. -/
def bindRequest (object : NsSocket) : SysRequest := .bind object.fd object.addr sizeofSockaddrIn

theorem connect_makes : Makes (fun object => jclConnect object.fd object.addr sizeofSockaddrIn) Wrappers.connectErr
    connectRequest := fun _ _ _ => returns_request fun _ => rfl

theorem bind_makes : Makes (fun object => jclBind object.fd object.addr sizeofSockaddrIn) Wrappers.defaultErr
    bindRequest := fun _ _ _ => returns_request fun _ => rfl

/-- Connecting makes its request once more than it is interrupted, and does not end where it is interrupted all the
    time. Binding makes its request once, and an interruption is an error as any other. -/
theorem interrupted_requests (h : s.net.Has sock object) (rounds : Nat) :
    (∀ again < rounds, InterruptedFor s (connectRequest object) again →
        s.os.answer (s.calls + again) (connectRequest object) ≠ .error .eintr →
        Returns (jclNsSocketConnect sock rounds) s fun _ s' =>
          Repeated Wrappers.connectErr (connectRequest object) again s s') ∧
      (InterruptedFor s (connectRequest object) rounds → Fails (jclNsSocketConnect sock rounds) s .diverges) ∧
      (0 < rounds → Returns (jclNsSocketBind sock rounds) s fun _ s' =>
        Repeated Wrappers.defaultErr (bindRequest object) 0 s s') := by
  refine ⟨?_, ?_, ?_⟩
  · intro again hrounds hinter hlast
    exact retryLoop_repeats connect_makes connectErr_inter h hrounds hinter hlast
  · exact fun hinter => retryLoop_diverges connect_makes rfl h hinter
  · exact fun hrounds => retryLoop_done bind_makes h hrounds fun errno _ => by simp [Wrappers.defaultErr]

/-- A system that interrupts the first two calls and then grants everything. -/
def sampleConnOs : ConnOs where
  answer n _ := if n < 2 then .error .eintr else .ok ()
  getaddrinfo n _ _ lists :=
    let list := 8192 + 64 * UInt64.ofNat n
    if list = null ∨ list ∈ lists then .error .again
    else .ok (list, { aiFamily := 2, aiAddrlen := sizeofSockaddrIn,
                      aiAddr := { sinFamily := afInet, sinPort := htons 8080, sinAddr := 16777343 } })
  inetPton _ := none
  getaddrinfo_fresh := by
    intro n name port lists list info h
    dsimp only at h
    split at h
    · cases h
    · case isFalse hnot =>
        cases h
        exact not_or.1 hnot
  getaddrinfo_family := by
    intro n name port lists list info h
    dsimp only at h
    split at h
    · cases h
    · cases h
      rfl

/-- That system before the first of these calls. -/
def sampleConnSys (net : NetSys) : ConnSys where
  net := net
  os := sampleConnOs
  calls := 0
  requests := []
  infos := fun _ => none
  lists := []

/-- Connecting is interrupted twice, and binding fails at the first interruption. -/
theorem interrupted_requests_twice :
    (sampleConnSys createdSys).net.Has 4096 { fd := -1, addr := .zero } ∧
      Returns (jclNsSocketConnect 4096 5) (sampleConnSys createdSys) (fun _ s' => Repeated Wrappers.connectErr
        (connectRequest { fd := -1, addr := .zero }) 2 (sampleConnSys createdSys) s') ∧
      Returns (jclNsSocketBind 4096 5) (sampleConnSys createdSys) (fun _ s' => Repeated Wrappers.defaultErr
        (bindRequest { fd := -1, addr := .zero }) 0 (sampleConnSys createdSys) s') := by
  have hhas : (sampleConnSys createdSys).net.Has 4096 { fd := -1, addr := .zero } :=
    ⟨by decide +kernel, by decide, by decide +kernel⟩
  obtain ⟨hconnect, -, hbind⟩ := interrupted_requests hhas 5
  refine ⟨hhas, hconnect 2 (by decide) ?_ (by decide), hbind (by decide)⟩
  intro i hi
  change (if 0 + i < 2 then Except.error Errno.eintr else Except.ok ()) = Except.error Errno.eintr
  rw [Nat.zero_add, if_pos hi]

end Jcl.Sockets
