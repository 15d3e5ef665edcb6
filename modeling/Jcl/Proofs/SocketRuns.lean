/-
Module: Jcl.Proofs.SocketRuns
Layer: Proofs
Purpose: The descriptors over whole runs. A client creates, opens, accepts, closes and destroys any number of socket
  objects in any order, whatever the calls on the system answer; as long as it opens only objects without a descriptor
  and with no error pending, no descriptor is lost and none is closed twice.
Imports: Jcl.Proofs.SocketObjects, Jcl.Lib.System
Trusted boundary: human-reviewed spec (SocketCall.Allowed, perform, socketSystem, DescriptorsKept, SocketCall.Keeps)
Main exports: socketSystem, DescriptorsKept, Sound.step, Sound.reached, descriptors_kept_iff
-/
import Jcl.Proofs.SocketObjects
import Jcl.Lib.System

namespace Jcl.Sockets

open Ledger (Entry unreleased Legal Custody Guard Untouched)

/-- A call of the client. -/
inductive SocketCall where
  | create
  | open (sock : Addr)
  | accept (sock : Addr) (rounds : Nat)
  | close (sock : Addr)
  | destroy (sockGive : Option Addr)
deriving DecidableEq, Repr

/-- The client passes pointers that it was given and did not destroy, or `NULL` where that is allowed. -/
def SocketCall.Allowed (socks : List Addr) : SocketCall → Prop
  | .create => True
  | .open sock => sock ∈ socks
  | .accept sock _ => sock ∈ socks
  | .close sock => sock = null ∨ sock ∈ socks
  | .destroy sockGive => ∀ sock ∈ sockGive, sock = null ∨ sock ∈ socks

/-- The pointers of the client after it was given another one. -/
def withSocket (socks : List Addr) (sock : Addr) : List Addr := if sock = null then socks else sock :: socks

/-- A call of the client, which holds these pointers, with this error in `*err`: the pointers that it holds
    after it. -/
def perform (err : JclErr) (socks : List Addr) (call : SocketCall) : NetM (List Addr) := do
  setErr err
  match call with
  | .create => return withSocket socks (← jclNsSocketCreate)
  | .open sock =>
      jclNsSocketOpen sock
      return socks
  | .accept sock rounds => return withSocket socks (← jclNsSocketAccept sock rounds)
  | .close sock =>
      jclNsSocketClose sock
      return socks
  | .destroy sockGive =>
      let _ ← jclNsSocketDestroy sockGive
      return match sockGive with
        | none => socks
        | some sock => socks.erase sock

/-- The runs of a client from `start` on. A state is the system with the pointers that the client holds. -/
def socketSystem (start : NetSys) : System (NetSys × List Addr) (JclErr × SocketCall) where
  init st := st = (start, [])
  step st l st' := l.2.Allowed st.2 ∧ (perform l.1 st.2 l.2).run st.1 = .ok (st'.2, st'.1)

/-- No socket object was created yet, and no descriptor obtained. -/
structure NetSys.Fresh (s : NetSys) : Prop where
  sockets : s.sockets = fun _ => none
  events : s.events = []

/-- Every descriptor that was obtained is held by exactly one socket object and was not closed, or the next thing that
    happened to its number is that it was closed; what was closed was a descriptor that was open, and what is held is
    open; and where there are no socket objects every descriptor was closed. -/
structure DescriptorsKept (socks : List Addr) (s : NetSys) : Prop where
  obtained : ∀ newer fd older, s.events = newer ++ .acquired fd :: older →
    (Untouched fd newer ∧ ∃! sock, sock ∈ socks ∧ s.holds sock = some fd) ∨
      ∃ later between, newer = later ++ .released fd :: between ∧ Untouched fd between
  closed : ∀ newer fd older, s.events = newer ++ .released fd :: older → fd ≠ -1 ∧
    ∃ between before, older = between ++ .acquired fd :: before ∧ Untouched fd between
  held : ∀ sock ∈ socks, ∀ fd, s.holds sock = some fd → fd ∈ unreleased s.events
  destroyed : socks = [] → ∀ newer fd older, s.events = newer ++ .acquired fd :: older →
    ∃ later between, newer = later ++ .released fd :: between ∧ Untouched fd between

/-- Where `jcl_ns_socket_open` gets a descriptor, no error is pending and the object has none. -/
def SocketCall.Keeps (err : JclErr) (s : NetSys) : SocketCall → Prop
  | .open sock => ∀ fd, s.os.socket s.calls (unreleased s.events) = .ok fd → err = .ok ∧ s.holds sock = none
  | _ => True

/-- The runs whose calls all meet that condition. -/
def carefulSystem (start : NetSys) : System (NetSys × List Addr) (JclErr × SocketCall) :=
  (socketSystem start).restrict fun st l => l.2.Keeps l.1 st.1

/-- The call is an `accept` that is interrupted in all its rounds. -/
def SocketCall.Waits (s : NetSys) : SocketCall → Prop
  | .accept _ rounds => Interrupted s.os (s.calls + 1) rounds
  | _ => False

variable {s start : NetSys} {socks : List Addr} {err : JclErr} {call : SocketCall}
  {P : (Addr → Option Int) → List (Entry Int) → Prop}

/-! ### What the invariant says of the log -/

/-- What became of a descriptor since it was obtained. -/
theorem Sound.fate (h : Sound socks s) {newer older : List (Entry Int)} {fd : Int}
    (hevents : s.events = newer ++ .acquired fd :: older) :
    (Untouched fd newer ∧ ∃! sock, sock ∈ socks ∧ s.holds sock = some fd) ∨
      ∃ later between, newer = later ++ .released fd :: between ∧ Untouched fd between := by
  have hlegal := h.custody.legal
  rw [hevents] at hlegal
  rcases hlegal.fate with ⟨hlive, huntouched⟩ | hclosed
  · rw [← hevents] at hlive
    obtain ⟨sock, hheld, hunique⟩ := h.custody.once fd hlive
    refine .inl ⟨huntouched, sock, ⟨?_, hheld⟩, fun sock' hsock' => hunique sock' hsock'.2⟩
    obtain ⟨object, hobject, -⟩ := Option.bind_eq_some_iff.1 hheld
    exact (h.stored sock).2 ⟨object, hobject⟩
  · exact .inr hclosed

theorem Sound.kept (h : Sound socks s) : DescriptorsKept socks s where
  obtained newer fd older hevents := h.fate hevents
  closed newer fd older hevents := by
    have hlegal := h.custody.legal
    rw [hevents] at hlegal
    have hlast := hlegal.of_append.of_cons.last_acquired hlegal.unreleased_before
    refine ⟨?_, hlast⟩
    rintro rfl
    obtain ⟨between, before, hbefore, -⟩ := hlast
    have hmem : Entry.acquired (-1) ∈ s.events := by simp [hevents, hbefore]
    exact absurd (h.numbers _ hmem) (by decide)
  held sock _ fd hheld := h.custody.held sock fd hheld
  destroyed hnone newer fd older hevents := by
    subst hnone
    rcases h.fate hevents with ⟨-, sock, ⟨hmem, -⟩, -⟩ | hclosed
    · exact absurd hmem List.not_mem_nil
    · exact hclosed

/-- A descriptor that is open and that no object holds is lost. -/
theorem not_kept_of_lost {lost : Int} (hlegal : Legal s.events) (hlive : lost ∈ unreleased s.events)
    (hnobody : ∀ sock, s.holds sock ≠ some lost) : ¬ DescriptorsKept socks s := by
  intro h
  obtain ⟨newer, older, hevents, huntouched⟩ := hlegal.last_acquired hlive
  rcases h.obtained newer lost older hevents with ⟨-, sock, ⟨-, hheld⟩, -⟩ | ⟨later, between, hnewer, -⟩
  · exact hnobody sock hheld
  · have hmem : Entry.released lost ∈ newer := by simp [hnewer]
    exact huntouched _ hmem rfl

/-! ### Every call keeps the invariant -/

/-- The address was never set, or it is one of the internet. -/
def SockaddrIn.Named (addr : SockaddrIn) : Prop := addr = .zero ∨ addr.sinFamily = afInet

/-- Every socket object has such an address. -/
def NetSys.Named (s : NetSys) : Prop := ∀ sock addr, s.addrOf sock = some addr → addr.Named

/-- The address that a call gives to an object, where the client holds the pointers `socks` before it and the system is
    `s'` after it. -/
def SocketCall.gives (s s' : NetSys) (socks : List Addr) (sock : Addr) : SocketCall → Option SockaddrIn
  | .create => if sock ∈ socks then none else some .zero
  | .accept listening _ => if sock ∈ socks then none else s.acceptedAddr listening (s'.calls - 1)
  | _ => none

/-- The objects have the addresses that were given to them, and the others have those that they had. -/
structure AddrsKept (s : NetSys) (given : Addr → Option SockaddrIn) (socks' : List Addr) (s' : NetSys) : Prop where
  same : ∀ sock ∈ socks', s'.addrOf sock = (given sock).or (s.addrOf sock)
  named : s.Named → s'.Named

variable {given : Addr → Option SockaddrIn}

theorem AddrsKept.of_eq {s' : NetSys} {socks' : List Addr} (hgiven : ∀ sock ∈ socks', given sock = none)
    (h : s'.addrOf = s.addrOf) : AddrsKept s given socks' s' where
  same sock hmem := by rw [hgiven sock hmem, Option.none_or, h]
  named hnamed := by
    unfold NetSys.Named
    rw [h]
    exact hnamed

/-- A new object. -/
theorem AddrsKept.create {s' : NetSys} {sock : Addr} {addr : SockaddrIn} (hnew : sock ∉ socks)
    (hothers : ∀ q ∈ socks, given q = none) (hgiven : given sock = some addr) (hnamed : addr.Named)
    (h : s'.addrOf = Function.update s.addrOf sock (some addr)) : AddrsKept s given (sock :: socks) s' where
  same q hq := by
    rcases List.mem_cons.1 hq with rfl | hq
    · rw [h, Function.update_self, hgiven, Option.some_or]
    · rw [h, Function.update_of_ne (ne_of_mem_of_not_mem hq hnew), hothers q hq, Option.none_or]
  named hall := by
    intro q other hother
    rw [h] at hother
    by_cases hq : q = sock
    · subst hq
      rw [Function.update_self] at hother
      cases hother
      exact hnamed
    · rw [Function.update_of_ne hq] at hother
      exact hall q other hother

/-- An object is gone. -/
theorem AddrsKept.erase {s' : NetSys} {sock : Addr} (hnodup : socks.Nodup)
    (h : s'.addrOf = Function.update s.addrOf sock none) : AddrsKept s (fun _ => none) (socks.erase sock) s' where
  same q hleft := by rw [h, Function.update_of_ne (hnodup.mem_erase_iff.1 hleft).1, Option.none_or]
  named hall := by
    intro q addr haddr
    rw [h] at haddr
    by_cases hq : q = sock
    · subst hq
      rw [Function.update_self] at haddr
      cases haddr
    · rw [Function.update_of_ne hq] at haddr
      exact hall q addr haddr

/-- The client is given a pointer, which may be `NULL`, and the object there has the address that comes with it. -/
theorem SoundBy.withSocket {s' : NetSys} {sock : Addr} {new : Option SockaddrIn}
    (h : (sock = null ∧ SoundBy P socks s' ∧ s'.addrOf = s.addrOf) ∨ (SoundBy P (sock :: socks) s' ∧
      ∃ addr, addr.Named ∧ new = some addr ∧ s'.addrOf = Function.update s.addrOf sock (some addr))) :
    SoundBy P (withSocket socks sock) s' ∧
      AddrsKept s (fun q => if q ∈ socks then none else new) (Sockets.withSocket socks sock) s' := by
  rcases h with ⟨rfl, h, haddrs⟩ | ⟨h, addr, hnamed, hnew, haddrs⟩
  · rw [Sockets.withSocket, if_pos rfl]
    exact ⟨h, .of_eq (fun q hq => if_pos hq) haddrs⟩
  · have hfresh := (List.nodup_cons.1 h.nodup).1
    rw [Sockets.withSocket, if_neg (h.allocated sock List.mem_cons_self).1]
    exact ⟨h, .create hfresh (fun q hq => if_pos hq) ((if_neg hfresh).trans hnew) hnamed haddrs⟩

/-- A call keeps the invariant if `jcl_ns_socket_open` does, and returns unless it waits. -/
theorem SoundBy.step [Guard P] (h : SoundBy P socks s) (hallowed : call.Allowed socks)
    (hopen : ∀ sock ∈ socks, call = .open sock → Returns (jclNsSocketOpen sock)
      { s with errs := { s.errs with err := err } } fun _ s' => SoundBy P socks s' ∧ s'.addrOf = s.addrOf) :
    ReturnsUnless (call.Waits s) .diverges (perform err socks call) s fun socks' s' =>
      SoundBy P socks' s' ∧ AddrsKept s (fun sock => call.gives s s' socks sock) socks' s' := by
  have hset : SoundBy P socks { s with errs := { s.errs with err := err } } := h.errs _ _
  refine ReturnsUnless.bind_of (R := fun _ s₁ => s₁ = { s with errs := { s.errs with err := err } })
    (.inl (returns_setErr.2 rfl)) ?_
  rintro _ s₁ rfl
  cases call with
  | create =>
      refine .inl (Returns.bind_of (create_spec hset) ?_)
      rintro sock s₂ ⟨-, h₂⟩
      refine returns_pure.2 (SoundBy.withSocket ?_)
      rcases h₂ with ⟨hnull, -, h₂, haddrs⟩ | ⟨-, hsockets, -, h₂⟩
      · exact .inl ⟨hnull, h₂, haddrs⟩
      · exact .inr ⟨h₂, .zero, .inl rfl, rfl, NetSys.addrOf_update hsockets rfl⟩
  | «open» sock =>
      exact .inl (Returns.bind_of (hopen sock hallowed rfl) fun _ s₂ h₂ =>
        returns_pure.2 ⟨h₂.1, .of_eq (fun _ _ => rfl) h₂.2⟩)
  | accept sock rounds =>
      refine ReturnsUnless.bind_of (accept_spec hset hallowed rounds) fun sock s₂ h₂ => ?_
      refine .inl (returns_pure.2 (SoundBy.withSocket (h₂.imp_right ?_)))
      rintro ⟨hsound, addr, hfamily, hanswered, haddrs⟩
      exact ⟨hsound, addr, .inr hfamily, hanswered, haddrs⟩
  | close sock =>
      exact .inl (Returns.bind_of (close_spec hset hallowed) fun _ s₂ h₂ =>
        returns_pure.2 ⟨h₂.1, .of_eq (fun _ _ => rfl) h₂.2⟩)
  | destroy sockGive =>
      left
      cases sockGive with
      | none => exact returns_bind.2 (returns_pure.2 (returns_pure.2 ⟨hset, .of_eq (fun _ _ => rfl) rfl⟩))
      | some sock =>
          by_cases hnull : sock = null
          · subst hnull
            have herase : socks.erase null = socks :=
              List.erase_of_not_mem fun hmem => (h.allocated null hmem).1 rfl
            refine returns_bind.2 (returns_pure.2 (returns_pure.2 ?_))
            change SoundBy P (socks.erase null) _ ∧ AddrsKept s _ (socks.erase null) _
            rw [herase]
            exact ⟨hset, .of_eq (fun _ _ => rfl) rfl⟩
          · have hmem : sock ∈ socks := (hallowed sock rfl).resolve_left hnull
            exact Returns.bind_of (destroy_spec hset hmem) fun _ s₂ h₂ =>
              returns_pure.2 ⟨h₂.2.1, .erase h.nodup h₂.2.2⟩

/-- A call that meets the condition keeps the invariant, and returns unless it waits. -/
theorem Sound.step (h : Sound socks s) (hallowed : call.Allowed socks) (hkeeps : call.Keeps err s) :
    ReturnsUnless (call.Waits s) .diverges (perform err socks call) s fun socks' s' => Sound socks' s' := by
  refine (SoundBy.step h hallowed ?_).mono fun _ _ h' => h'.1
  rintro sock hmem rfl
  exact open_spec (h.errs _ _) hmem hkeeps

/-- A call of `jcl_ns_socket_open` that does not meet the condition loses a descriptor. -/
theorem Sound.step_lost (h : Sound socks s) (hallowed : call.Allowed socks) (hnot : ¬ call.Keeps err s) :
    Returns (perform err socks call) s fun socks' s' => ¬ DescriptorsKept socks' s' := by
  cases call with
  | «open» sock =>
      have hset : Sound socks { s with errs := { s.errs with err := err } } := h.errs _ _
      simp only [SocketCall.Keeps, not_forall] at hnot
      obtain ⟨fd, hsocket, hlost⟩ := hnot
      rw [not_and_or] at hlost
      rw [perform, returns_bind, returns_setErr]
      refine Returns.bind_of (open_lost hset hallowed hsocket hlost) ?_
      rintro _ s₂ ⟨hlegal, lost, hlive, hnobody⟩
      exact returns_pure.2 (not_kept_of_lost hlegal hlive hnobody)
  | create | accept | close | destroy => exact absurd trivial hnot

theorem NetSys.Fresh.sound (h : s.Fresh) : Sound [] s := by
  have hholds : s.holds = fun _ => none := by
    funext sock
    rw [NetSys.holds, h.sockets, Option.bind_none]
  refine ⟨List.nodup_nil, ?_, ?_, ?_, ?_⟩
  · intro sock
    simp [h.sockets]
  · intro sock hmem
    exact absurd hmem List.not_mem_nil
  · rw [hholds, h.events]
    exact Custody.start
  · rw [h.events]
    intro fd hmem
    exact absurd hmem List.not_mem_nil

/-- Every run whose calls meet the condition keeps the invariant. -/
theorem Sound.reached {calls : List (JclErr × SocketCall)} {st : NetSys × List Addr} (hfresh : start.Fresh)
    (run : (carefulSystem start).Reaches calls st) : Sound st.2 st.1 := by
  refine run.invariant (P := fun st => Sound st.2 st.1) ?_ ?_
  · rintro _ rfl
    exact hfresh.sound
  · rintro st ⟨err, call⟩ st' h ⟨hkeeps, hallowed, hrun⟩
    exact (h.step hallowed hkeeps).det hrun

/-- In every run whose calls meet the condition no descriptor is lost or closed twice, and the next call keeps it so
    exactly where it meets the condition; it returns unless it is an `accept` that is interrupted all the time. -/
theorem descriptors_kept_iff (hfresh : start.Fresh) {calls : List (JclErr × SocketCall)} {st : NetSys × List Addr}
    (run : (carefulSystem start).Reaches calls st) :
    DescriptorsKept st.2 st.1 ∧ ∀ (err : JclErr) (call : SocketCall), call.Allowed st.2 →
      (ReturnsUnless (call.Waits st.1) .diverges (perform err st.2 call) st.1
          (fun socks s => DescriptorsKept socks s) ↔ call.Keeps err st.1) := by
  have hsound := Sound.reached hfresh run
  refine ⟨hsound.kept, ?_⟩
  intro err call hallowed
  constructor
  · intro hkept
    by_contra hnot
    obtain ⟨socks, s, hrun, hlost⟩ := hsound.step_lost hallowed hnot
    exact hlost (hkept.det hrun)
  · exact fun hkeeps => (hsound.step hallowed hkeeps).mono fun _ _ h => h.kept

/-! ### Fixed runs -/

/-- A system that grants everything, with numbers that grow. -/
def sampleOs : NetOs where
  malloc n blocks :=
    let ptr := 4096 + 64 * UInt64.ofNat n
    if ptr = null ∨ ptr ∈ blocks then .error enomem else .ok ptr
  socket n fds := if (n : Int) + 3 ∈ fds then .error (.other 24) else .ok (n + 3)
  accept n _ fds :=
    if (n : Int) + 3 ∈ fds then .error (.other 24)
    else .ok { fd := n + 3, addr := { sinFamily := afInet, sinPort := 0, sinAddr := 0 }, addrlen := sizeofSockaddrIn }
  close _ _ := .ok ()
  malloc_fresh := by
    intro n blocks ptr h
    dsimp only at h
    split at h
    · cases h
    · case isFalse hnot =>
        cases h
        exact not_or.1 hnot
  socket_fresh := by
    intro n fds fd h
    split at h
    · cases h
    · case isFalse hnot =>
        cases h
        exact ⟨by omega, hnot⟩
  accept_fresh := by
    intro n sockFd fds accepted h
    split at h
    · cases h
    · case isFalse hnot =>
        cases h
        exact ⟨by simp; omega, hnot⟩

/-- That system before the first call. -/
def sampleSys : NetSys where
  os := sampleOs
  calls := 0
  blocks := []
  sockets := fun _ => none
  events := []
  errs := { errno := .other 0, err := .ok }

theorem sampleSys_fresh : sampleSys.Fresh := ⟨rfl, rfl⟩

/-- `sampleSys` after a socket object was created. -/
def createdSys : NetSys := stateAfter (perform .ok [] .create) sampleSys

theorem created_run : (perform .ok [] .create).run sampleSys = .ok ([4096], createdSys) := by
  have hresult : resultOf (perform .ok [] .create) sampleSys = .ok [4096] := by decide +kernel
  exact run_of_resultOf hresult

/-- After a creation, opening the object keeps the descriptors in the sense of the condition. -/
theorem descriptors_kept_create : DescriptorsKept [4096] createdSys ∧
    (ReturnsUnless ((SocketCall.open 4096).Waits createdSys) .diverges (perform .ok [4096] (.open 4096)) createdSys
        (fun socks s => DescriptorsKept socks s) ↔ (SocketCall.open 4096).Keeps .ok createdSys) := by
  have hstep : (carefulSystem sampleSys).step (sampleSys, []) (.ok, .create) (createdSys, [4096]) :=
    ⟨trivial, trivial, created_run⟩
  have hrun := System.Reaches.step (.init rfl) hstep
  obtain ⟨hkept, hcalls⟩ := descriptors_kept_iff sampleSys_fresh hrun
  exact ⟨hkept, hcalls .ok (.open 4096) List.mem_cons_self⟩

/-- `createdSys` after the object was opened, and opened again. -/
def openedSys : NetSys := stateAfter (perform .ok [4096] (.open 4096)) createdSys
def reopenedSys : NetSys := stateAfter (perform .ok [4096] (.open 4096)) openedSys

/-- `reopenedSys` after the object was destroyed. -/
def destroyedSys : NetSys := stateAfter (perform .ok [4096] (.destroy (some 4096))) reopenedSys

/-- A socket object is created, opened twice and destroyed: the first descriptor is never closed. -/
theorem reopened_leaks :
    (socketSystem sampleSys).Reaches
        [(.ok, .create), (.ok, .open 4096), (.ok, .open 4096), (.ok, .destroy (some 4096))] (destroyedSys, []) ∧
      destroyedSys.events = [.released 5, .acquired 5, .acquired 4] ∧ ¬ DescriptorsKept [] destroyedSys := by
  have hopened : resultOf (perform .ok [4096] (.open 4096)) createdSys = .ok [4096] := by decide +kernel
  have hreopened : resultOf (perform .ok [4096] (.open 4096)) openedSys = .ok [4096] := by decide +kernel
  have hdestroyed : resultOf (perform .ok [4096] (.destroy (some 4096))) reopenedSys = .ok [] := by decide +kernel
  have hevents : destroyedSys.events = [.released 5, .acquired 5, .acquired 4] := by decide +kernel
  have hcreate : (socketSystem sampleSys).step (sampleSys, []) (.ok, .create) (createdSys, [4096]) :=
    ⟨trivial, created_run⟩
  have hopen : (socketSystem sampleSys).step (createdSys, [4096]) (.ok, .open 4096) (openedSys, [4096]) :=
    ⟨List.mem_cons_self, run_of_resultOf hopened⟩
  have hreopen : (socketSystem sampleSys).step (openedSys, [4096]) (.ok, .open 4096) (reopenedSys, [4096]) :=
    ⟨List.mem_cons_self, run_of_resultOf hreopened⟩
  have hallowed : (SocketCall.destroy (some 4096)).Allowed [4096] := by
    intro sock hsock
    cases hsock
    exact .inr List.mem_cons_self
  have hdestroy : (socketSystem sampleSys).step (reopenedSys, [4096]) (.ok, .destroy (some 4096))
      (destroyedSys, []) := ⟨hallowed, run_of_resultOf hdestroyed⟩
  have hrun := (((System.Reaches.init rfl).step hcreate).step hopen).step hreopen
  refine ⟨hrun.step hdestroy, hevents, ?_⟩
  intro h
  obtain ⟨later, between, hnewer, -⟩ := h.destroyed rfl [.released 5, .acquired 5] 4 [] hevents
  have hmem : Entry.released (4 : Int) ∈ [Entry.released (5 : Int), .acquired 5] := by simp [hnewer]
  simp at hmem

end Jcl.Sockets
