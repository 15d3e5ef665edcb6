/-
Module: Jcl.Proofs.SocketObjects
Layer: Proofs
Purpose: What each function on socket objects does to the descriptors. `SoundBy P` says that a list of pointers names
  the socket objects and that what these hold is as `P` says; `Sound`, that they hold the descriptors that are open, each
  of them once. Every function keeps it, but for `jcl_ns_socket_open` on an object with a descriptor or with an error
  pending.
Imports: Jcl.SocketObjects, Jcl.Lib.Returns
Trusted boundary: none (fully proved)
Main exports: NetSys.holds, SoundBy, Sound, create_spec, open_spec, open_lost, close_spec, destroy_spec, accept_spec
-/
import Jcl.SocketObjects
import Jcl.Lib.Returns

namespace Jcl.Sockets

open Ledger (Entry unreleased Legal Custody Guard)
open Wrappers (ErrState)

variable {s s' : NetSys} {socks : List Addr} {sock ptr : Addr} {object : NsSocket}

/-! ### Symbolic execution of the calls on the system -/

@[simp] theorem returns_getErr {Q : JclErr → NetSys → Prop} : Returns getErr s Q ↔ Q s.errs.err s := by
  simp [getErr]

@[simp] theorem returns_failed {Q : Bool → NetSys → Prop} : Returns failed s Q ↔ Q (s.errs.err != .ok) s := by
  simp [failed]

@[simp] theorem returns_setErr {err : JclErr} {Q : Unit → NetSys → Prop} :
    Returns (setErr err) s Q ↔ Q () { s with errs := { s.errs with err := err } } := by
  simp [setErr]

/-- A check of `*err` that passes. -/
theorem returns_check_ok {α : Type} (herr : s.errs.err = .ok) {exit rest : NetM α} {Q : α → NetSys → Prop} :
    Returns (do if ← failed then exit else rest) s Q ↔ Returns rest s Q := by
  simp [herr]

/-- A check of `*err` that takes the exit. -/
theorem returns_check_err {α : Type} (herr : s.errs.err ≠ .ok) {exit rest : NetM α} {Q : α → NetSys → Prop} :
    Returns (do if ← failed then exit else rest) s Q ↔ Returns exit s Q := by
  have hfailed : (s.errs.err != .ok) = true := bne_iff_ne.2 herr
  rw [returns_bind, returns_failed, hfailed, if_pos rfl]

theorem returns_wrapped {α : Type} {wrapper : Wrappers.ErrM α} {Q : α → NetSys → Prop} :
    Returns (wrapped wrapper) s Q ↔ Q (wrapper.run s.errs).1 { s with errs := (wrapper.run s.errs).2 } := by
  simp only [wrapped, returns_bind, returns_get]
  obtain ⟨value, errs⟩ := wrapper.run s.errs
  simp only [returns_bind, returns_set, returns_pure]

/-- A wrapper whose call succeeded. -/
theorem returns_wrapped_ok {α : Type} {switch : Errno → JclErr} {failValue value : α} {Q : α → NetSys → Prop} :
    Returns (wrapped (Wrappers.onErrno switch failValue (Wrappers.sysCall (.ok value)))) s Q ↔ Q value s :=
  returns_wrapped

/-- A wrapper whose call failed. -/
theorem returns_wrapped_error {α : Type} {switch : Errno → JclErr} {failValue : α} {errno : Errno}
    {Q : α → NetSys → Prop} :
    Returns (wrapped (Wrappers.onErrno switch failValue (Wrappers.sysCall (.error errno)))) s Q ↔
      Q failValue { s with errs := { errno := errno, err := switch errno } } :=
  returns_wrapped

theorem returns_jclMalloc {Q : Addr → NetSys → Prop} : Returns jclMalloc s Q ↔
    match s.os.malloc s.calls s.blocks with
    | .ok ptr => Q ptr { s with calls := s.calls + 1, blocks := ptr :: s.blocks }
    | .error errno => Q null { s with calls := s.calls + 1, errs := { errno := errno, err := .sys } } := by
  simp only [jclMalloc, Wrappers.jclMalloc, returns_bind, returns_get, returns_set]
  cases s.os.malloc s.calls s.blocks with
  | ok ptr => exact returns_wrapped_ok
  | error errno => exact returns_wrapped_error

theorem returns_jclSocket {Q : Int → NetSys → Prop} : Returns jclSocket s Q ↔
    match s.os.socket s.calls (unreleased s.events) with
    | .ok fd => Q fd { s with calls := s.calls + 1, events := .acquired fd :: s.events }
    | .error errno => Q (-1) { s with calls := s.calls + 1, errs := { errno := errno, err := .sys } } := by
  simp only [jclSocket, Wrappers.jclSocket, returns_bind, returns_get, returns_set]
  cases s.os.socket s.calls (unreleased s.events) with
  | ok fd => exact returns_wrapped_ok
  | error errno => exact returns_wrapped_error

theorem returns_jclAccept {sockFd : Int} {addr : SockaddrIn} {addrlen : Nat}
    {Q : Int × SockaddrIn × Nat → NetSys → Prop} :
    Returns (jclAccept sockFd addr addrlen) s Q ↔
      match s.os.accept s.calls sockFd (unreleased s.events) with
      | .ok accepted => Q (accepted.fd, accepted.addr, accepted.addrlen)
          { s with calls := s.calls + 1, events := .acquired accepted.fd :: s.events }
      | .error errno => Q (-1, addr, addrlen)
          { s with calls := s.calls + 1, errs := { errno := errno, err := Wrappers.acceptErr errno } } := by
  simp only [jclAccept, Wrappers.jclAccept, returns_bind, returns_get, returns_set]
  cases s.os.accept s.calls sockFd (unreleased s.events) with
  | ok accepted => exact returns_wrapped_ok.trans returns_pure
  | error errno => exact returns_wrapped_error.trans returns_pure

/-- The system after `close` was called, whatever it answered. -/
theorem returns_close {fd : Int} {Q : Unit → NetSys → Prop} (hQ : ∀ errno, Q ()
      { s with calls := s.calls + 1, events := .released fd :: s.events, errs := { s.errs with errno := errno } }) :
    Returns (close fd) s Q := by
  simp only [close, closeAnswer, returns_bind, returns_get, returns_set, returns_pure]
  cases s.os.close s.calls fd with
  | ok value => exact ⟨_, _, rfl, hQ s.errs.errno⟩
  | error errno => exact ⟨_, _, rfl, hQ errno⟩

theorem returns_jclClose {fd : Int} {Q : Unit → NetSys → Prop} (hQ : ∀ errs, Q ()
      { s with calls := s.calls + 1, events := .released fd :: s.events, errs := errs }) :
    Returns (jclClose fd) s Q := by
  simp only [jclClose, Wrappers.jclClose, closeAnswer, returns_bind, returns_get, returns_set, returns_pure]
  cases s.os.close s.calls fd with
  | ok value => exact returns_wrapped_ok.2 (hQ s.errs)
  | error errno => exact returns_wrapped_error.2 (hQ _)

@[simp] theorem returns_deref {Q : Unit → NetSys → Prop} :
    Returns (deref sock) s Q ↔ sock ≠ null ∧ sock ∈ s.blocks ∧ Q () s := by
  unfold deref
  by_cases hnull : sock = null
  · simp [hnull]
  · by_cases hmem : sock ∈ s.blocks
    · simp [hnull, hmem]
    · simp [hnull, hmem]

@[simp] theorem returns_readSocket {Q : NsSocket → NetSys → Prop} : Returns (readSocket sock) s Q ↔
    sock ≠ null ∧ sock ∈ s.blocks ∧ ∃ object, s.sockets sock = some object ∧ Q object s := by
  simp only [readSocket, returns_bind, returns_deref, returns_get]
  cases s.sockets sock with
  | none => simp
  | some object => simp

@[simp] theorem returns_writeSocket {Q : Unit → NetSys → Prop} : Returns (writeSocket sock object) s Q ↔
    sock ≠ null ∧ sock ∈ s.blocks ∧
      Q () { s with sockets := Function.update s.sockets sock (some object) } := by
  simp only [writeSocket, returns_bind, returns_deref, returns_modify]

/-! ### Who holds which descriptor -/

/-- The descriptor in the object, if there is one. -/
def NsSocket.descriptor (object : NsSocket) : Option Int := if object.fd = -1 then none else some object.fd

/-- The descriptor that the socket object at an address holds. -/
def NetSys.holds (s : NetSys) (sock : Addr) : Option Int := (s.sockets sock).bind NsSocket.descriptor

theorem NsSocket.descriptor_of_nonneg (h : 0 ≤ object.fd) : object.descriptor = some object.fd :=
  if_neg (by omega)

theorem NetSys.holds_eq (h : s.sockets sock = some object) : s.holds sock = object.descriptor := by
  rw [NetSys.holds, h, Option.bind_some]

theorem NetSys.holds_fd (h : s.sockets sock = some object) (hfd : object.fd ≠ -1) :
    s.holds sock = some object.fd := by
  rw [NetSys.holds_eq h]
  exact if_neg hfd

/-- Only what the address holds changes with what is stored there. -/
theorem NetSys.holds_update {stored : Option NsSocket} (h : s'.sockets = Function.update s.sockets sock stored) :
    s'.holds = Function.update s.holds sock (stored.bind NsSocket.descriptor) := by
  funext q
  by_cases hq : q = sock
  · subst hq
    simp [NetSys.holds, h]
  · simp [NetSys.holds, h, hq]

/-- The address in the socket object at an address. -/
def NetSys.addrOf (s : NetSys) (sock : Addr) : Option SockaddrIn := (s.sockets sock).map NsSocket.addr

theorem NetSys.addrOf_update {stored : Option NsSocket} {addr : Option SockaddrIn}
    (h : s'.sockets = Function.update s.sockets sock stored) (haddr : stored.map NsSocket.addr = addr) :
    s'.addrOf = Function.update s.addrOf sock addr := by
  subst haddr
  funext q
  by_cases hq : q = sock
  · subst hq
    simp [NetSys.addrOf, h]
  · simp [NetSys.addrOf, h, hq]

/-- An object is written with the address that it had. -/
theorem NetSys.addrOf_store {old : NsSocket} (hold : s.sockets sock = some old)
    (h : s'.sockets = Function.update s.sockets sock (some object)) (haddr : object.addr = old.addr) :
    s'.addrOf = s.addrOf := by
  rw [NetSys.addrOf_update h rfl]
  refine Function.update_eq_self_iff.2 ?_
  rw [NetSys.addrOf, hold, Option.map_some, Option.map_some, haddr]

/-- Where there is no object there is no address. -/
theorem NetSys.addrOf_eq_none (h : ¬ ∃ object, s.sockets sock = some object) : s.addrOf sock = none := by
  rw [NetSys.addrOf, Option.map_eq_none_iff, Option.eq_none_iff_forall_ne_some]
  exact fun object hobject => h ⟨object, hobject⟩

/-- The pointers are those of the socket objects, and what these hold is as `P` says. -/
structure SoundBy (P : (Addr → Option Int) → List (Entry Int) → Prop) (socks : List Addr) (s : NetSys) : Prop where
  nodup : socks.Nodup
  stored : ∀ ptr, ptr ∈ socks ↔ ∃ object, s.sockets ptr = some object
  allocated : ∀ ptr ∈ socks, ptr ≠ null ∧ ptr ∈ s.blocks
  custody : P s.holds s.events
  numbers : ∀ fd, .acquired fd ∈ s.events → 0 ≤ fd

/-- The socket objects hold the open descriptors, each of them once. -/
abbrev Sound : List Addr → NetSys → Prop := SoundBy Custody

variable {P : (Addr → Option Int) → List (Entry Int) → Prop}

/-- Nothing else of the system matters. -/
theorem SoundBy.of_eq (h : SoundBy P socks s) (hsockets : s'.sockets = s.sockets)
    (hblocks : ∀ ptr ∈ socks, ptr ∈ s'.blocks) (hevents : s'.events = s.events) : SoundBy P socks s' := by
  have hholds : s'.holds = s.holds := by
    funext q
    rw [NetSys.holds, NetSys.holds, hsockets]
  refine ⟨h.nodup, ?_, fun ptr hmem => ⟨(h.allocated ptr hmem).1, hblocks ptr hmem⟩, ?_, ?_⟩
  · rw [hsockets]
    exact h.stored
  · rw [hholds, hevents]
    exact h.custody
  · rw [hevents]
    exact h.numbers

theorem SoundBy.errs (h : SoundBy P socks s) (calls : Nat) (errs : ErrState) :
    SoundBy P socks { s with calls := calls, errs := errs } :=
  h.of_eq rfl (fun ptr hmem => (h.allocated ptr hmem).2) rfl

/-- A pointer of the list can be accessed. -/
theorem SoundBy.lookup (h : SoundBy P socks s) (hmem : sock ∈ socks) :
    ∃ object, s.sockets sock = some object ∧ sock ≠ null ∧ sock ∈ s.blocks := by
  obtain ⟨object, hobject⟩ := (h.stored sock).1 hmem
  exact ⟨object, hobject, h.allocated sock hmem⟩

/-- An object is written, with the descriptors accounted for. -/
theorem SoundBy.store (h : SoundBy P socks s) (hmem : sock ∈ socks) (hblocks : s'.blocks = s.blocks)
    (hsockets : s'.sockets = Function.update s.sockets sock (some object))
    (hcustody : P (Function.update s.holds sock object.descriptor) s'.events)
    (hnumbers : ∀ fd, .acquired fd ∈ s'.events → 0 ≤ fd) : SoundBy P socks s' := by
  refine ⟨h.nodup, ?_, ?_, ?_, hnumbers⟩
  · intro q
    rw [hsockets]
    by_cases hq : q = sock
    · subst hq
      simp [hmem]
    · rw [Function.update_of_ne hq]
      exact h.stored q
  · rw [hblocks]
    exact h.allocated
  · rw [NetSys.holds_update hsockets]
    exact hcustody

/-- An object without a descriptor takes one that was just obtained. -/
theorem SoundBy.acquire [Guard P] (h : SoundBy P socks s) (hmem : sock ∈ socks) (hnone : s.holds sock = none)
    (hnonneg : 0 ≤ object.fd) (hfresh : object.fd ∉ unreleased s.events) (hblocks : s'.blocks = s.blocks)
    (hsockets : s'.sockets = Function.update s.sockets sock (some object))
    (hevents : s'.events = .acquired object.fd :: s.events) : SoundBy P socks s' := by
  refine h.store hmem hblocks hsockets ?_ ?_
  · rw [NsSocket.descriptor_of_nonneg hnonneg, hevents]
    exact Guard.acquire h.custody hnone hfresh
  · intro fd hfd
    rw [hevents] at hfd
    rcases List.mem_cons.1 hfd with heq | hfd
    · cases heq
      exact hnonneg
    · exact h.numbers fd hfd

/-- Closing a descriptor leaves those that were obtained before. -/
theorem SoundBy.numbers_released (h : SoundBy P socks s) (closed : Int) :
    ∀ fd, .acquired fd ∈ .released closed :: s.events → 0 ≤ fd :=
  fun fd hfd => h.numbers fd (List.mem_of_ne_of_mem (by simp) hfd)

/-- A new object without a descriptor. -/
theorem SoundBy.create (h : SoundBy P socks s) (hnull : sock ≠ null) (hfresh : sock ∉ s.blocks)
    (hblocks : s'.blocks = sock :: s.blocks) (hsockets : s'.sockets = Function.update s.sockets sock (some object))
    (hevents : s'.events = s.events) (hnone : object.descriptor = none) : SoundBy P (sock :: socks) s' := by
  have hnew : sock ∉ socks := fun hmem => hfresh (h.allocated sock hmem).2
  have hholds : s'.holds = s.holds := by
    rw [NetSys.holds_update hsockets, Option.bind_some, hnone]
    refine Function.update_eq_self_iff.2 ?_
    cases hobject : s.sockets sock with
    | none => rw [NetSys.holds, hobject, Option.bind_none]
    | some old => exact absurd ((h.stored sock).2 ⟨old, hobject⟩) hnew
  refine ⟨List.nodup_cons.2 ⟨hnew, h.nodup⟩, ?_, ?_, ?_, ?_⟩
  · intro q
    rw [hsockets, List.mem_cons]
    by_cases hq : q = sock
    · subst hq
      simp
    · rw [Function.update_of_ne hq, or_iff_right hq]
      exact h.stored q
  · intro q hq
    rw [hblocks]
    rcases List.mem_cons.1 hq with rfl | hq
    · exact ⟨hnull, List.mem_cons_self⟩
    · exact ⟨(h.allocated q hq).1, List.mem_cons_of_mem sock (h.allocated q hq).2⟩
  · rw [hholds, hevents]
    exact h.custody
  · rw [hevents]
    exact h.numbers

/-- An object is freed, with its descriptor accounted for. -/
theorem SoundBy.free (h : SoundBy P socks s) (hblocks : s'.blocks = s.blocks.erase sock)
    (hsockets : s'.sockets = Function.update s.sockets sock none)
    (hcustody : P (Function.update s.holds sock none) s'.events)
    (hnumbers : ∀ fd, .acquired fd ∈ s'.events → 0 ≤ fd) : SoundBy P (socks.erase sock) s' := by
  refine ⟨h.nodup.erase sock, ?_, ?_, ?_, hnumbers⟩
  · intro q
    rw [hsockets, h.nodup.mem_erase_iff]
    by_cases hq : q = sock
    · subst hq
      simp
    · rw [Function.update_of_ne hq, h.stored q]
      exact and_iff_right hq
  · intro q hq
    obtain ⟨hne, hmem⟩ := h.nodup.mem_erase_iff.1 hq
    rw [hblocks]
    exact ⟨(h.allocated q hmem).1, (List.mem_erase_of_ne hne).2 (h.allocated q hmem).2⟩
  · rw [NetSys.holds_update hsockets]
    exact hcustody

/-! ### The functions -/

/-- One call on the system was made. -/
structure OneCall (s s' : NetSys) : Prop where
  os : s'.os = s.os
  calls : s'.calls = s.calls + 1

/-- The object that comes back is new and holds nothing; where none comes back, an error is pending. -/
theorem create_spec (h : SoundBy P socks s) : Returns jclNsSocketCreate s fun sock s' => OneCall s s' ∧
    ((sock = null ∧ s'.errs.err ≠ .ok ∧ SoundBy P socks s' ∧ s'.addrOf = s.addrOf) ∨
      (s'.errs.err = .ok ∧ s'.sockets = Function.update s.sockets sock (some { fd := -1, addr := .zero }) ∧
        s'.events = s.events ∧ SoundBy P (sock :: socks) s')) := by
  rw [jclNsSocketCreate, returns_bind, returns_jclMalloc]
  cases hmalloc : s.os.malloc s.calls s.blocks with
  | error errno =>
      refine (returns_check_err (by simp)).2 (returns_pure.2 ⟨⟨rfl, rfl⟩, .inl ⟨rfl, by simp, ?_, rfl⟩⟩)
      exact h.errs _ _
  | ok ptr =>
      obtain ⟨hnull, hfresh⟩ := s.os.malloc_fresh _ _ _ hmalloc
      by_cases herr : s.errs.err = .ok
      · refine (returns_check_ok (by exact herr)).2 ?_
        simp only [returns_bind, returns_writeSocket, returns_pure, List.mem_cons_self, true_and]
        refine ⟨hnull, ⟨rfl, rfl⟩, .inr ⟨herr, ?_⟩⟩
        exact h.create hnull hfresh rfl rfl rfl rfl
      · -- The block is lost, but no object was stored in it.
        refine (returns_check_err (by exact herr)).2 (returns_pure.2 ⟨⟨rfl, rfl⟩, .inl ⟨rfl, herr, ?_, rfl⟩⟩)
        exact h.of_eq rfl (fun ptr hmem => List.mem_cons_of_mem _ (h.allocated ptr hmem).2) rfl

/-- An object without a descriptor takes the new one. -/
theorem open_spec (h : Sound socks s) (hmem : sock ∈ socks)
    (hkeeps : ∀ fd, s.os.socket s.calls (unreleased s.events) = .ok fd →
      s.errs.err = .ok ∧ s.holds sock = none) :
    Returns (jclNsSocketOpen sock) s fun _ s' => Sound socks s' ∧ s'.addrOf = s.addrOf := by
  rw [jclNsSocketOpen, returns_bind, returns_jclSocket]
  cases hsocket : s.os.socket s.calls (unreleased s.events) with
  | error errno =>
      exact (returns_check_err (by simp)).2 (returns_pure.2 ⟨h.errs _ _, rfl⟩)
  | ok fd =>
      obtain ⟨herr, hnone⟩ := hkeeps fd hsocket
      obtain ⟨hnonneg, hfresh⟩ := s.os.socket_fresh _ _ _ hsocket
      obtain ⟨object, hobject, hnull, hblock⟩ := h.lookup hmem
      refine (returns_check_ok (by exact herr)).2 ?_
      simp only [returns_bind, returns_readSocket, returns_writeSocket, hobject, Option.some.injEq, exists_eq_left']
      refine ⟨hnull, hblock, hnull, hblock, ?_, NetSys.addrOf_store hobject rfl rfl⟩
      exact h.acquire hmem hnone hnonneg hfresh rfl rfl rfl

/-- A new descriptor that comes with an error pending, or to an object with a descriptor, makes one that is open and
    that no object holds. -/
theorem open_lost (h : Sound socks s) (hmem : sock ∈ socks) {fd : Int}
    (hsocket : s.os.socket s.calls (unreleased s.events) = .ok fd)
    (hlost : s.errs.err ≠ .ok ∨ s.holds sock ≠ none) :
    Returns (jclNsSocketOpen sock) s fun _ s' =>
      Legal s'.events ∧ ∃ lost ∈ unreleased s'.events, ∀ ptr, s'.holds ptr ≠ some lost := by
  obtain ⟨hnonneg, hfresh⟩ := s.os.socket_fresh _ _ _ hsocket
  have hlegal : Legal (.acquired fd :: s.events) := ⟨hfresh, h.custody.legal⟩
  rw [jclNsSocketOpen, returns_bind, returns_jclSocket, hsocket]
  by_cases herr : s.errs.err = .ok
  · obtain ⟨object, hobject, hnull, hblock⟩ := h.lookup hmem
    obtain ⟨old, hold⟩ := Option.ne_none_iff_exists'.1 (hlost.resolve_left (not_not.2 herr))
    refine (returns_check_ok (by exact herr)).2 ?_
    simp only [returns_bind, returns_readSocket, returns_writeSocket, hobject, Option.some.injEq, exists_eq_left']
    refine ⟨hnull, hblock, hnull, hblock, hlegal, old, ?_⟩
    have hdescriptor : NsSocket.descriptor { object with fd := fd } = some fd :=
      NsSocket.descriptor_of_nonneg hnonneg
    rw [NetSys.holds_update rfl, Option.bind_some, hdescriptor]
    exact h.custody.lost_overwritten hold hfresh
  · exact (returns_check_err (by exact herr)).2 (returns_pure.2 ⟨hlegal, fd, h.custody.lost_dropped hfresh⟩)

/-- A socket object that has a descriptor gives it back. -/
theorem close_spec [Guard P] (h : SoundBy P socks s) (hmem : sock = null ∨ sock ∈ socks) :
    Returns (jclNsSocketClose sock) s fun _ s' => SoundBy P socks s' ∧ s'.addrOf = s.addrOf := by
  rw [jclNsSocketClose]
  by_cases hnull : sock = null
  · rw [if_pos hnull]
    exact returns_pure.2 ⟨h, rfl⟩
  · rw [if_neg hnull]
    have hmem := hmem.resolve_left hnull
    obtain ⟨object, hobject, hnull, hblock⟩ := h.lookup hmem
    simp only [returns_bind, returns_readSocket, hobject, Option.some.injEq, exists_eq_left', hnull, hblock,
      ne_eq, not_false_eq_true, true_and]
    by_cases hfd : object.fd = -1
    · rw [if_pos hfd]
      exact returns_pure.2 ⟨h, rfl⟩
    · rw [if_neg hfd, returns_bind]
      refine returns_jclClose fun errs => ?_
      rw [returns_writeSocket]
      refine ⟨hnull, hblock, ?_, NetSys.addrOf_store hobject rfl rfl⟩
      have hheld : s.holds sock = some object.fd := NetSys.holds_fd hobject hfd
      exact h.store hmem rfl rfl (Guard.release h.custody hheld) (h.numbers_released object.fd)

/-- The object is gone, and the descriptor that it had was given back. -/
theorem destroy_spec [Guard P] (h : SoundBy P socks s) (hmem : sock ∈ socks) :
    Returns (jclNsSocketDestroy (some sock)) s fun given s' =>
      given = some null ∧ SoundBy P (socks.erase sock) s' ∧ s'.addrOf = Function.update s.addrOf sock none := by
  obtain ⟨object, hobject, hnull, hblock⟩ := h.lookup hmem
  simp only [jclNsSocketDestroy, hnull, if_false, returns_bind, returns_readSocket, hobject, Option.some.injEq,
    exists_eq_left', hblock, ne_eq, not_false_eq_true, true_and]
  by_cases hfd : object.fd = -1
  · have hheld : s.holds sock = none := by
      rw [NetSys.holds_eq hobject]
      exact if_pos hfd
    simp only [hfd, not_true_eq_false, if_false, Sockets.free, returns_bind, returns_modify, returns_pure, true_and]
    refine ⟨h.free rfl rfl ?_ h.numbers, NetSys.addrOf_update rfl rfl⟩
    rw [Function.update_eq_self_iff.2 hheld.symm]
    exact h.custody
  · have hheld : s.holds sock = some object.fd := NetSys.holds_fd hobject hfd
    rw [if_pos hfd, returns_bind]
    refine returns_close fun errno => ?_
    simp only [Sockets.free, returns_bind, returns_modify, returns_pure, true_and]
    exact ⟨h.free rfl rfl (Guard.release h.custody hheld) (h.numbers_released object.fd), NetSys.addrOf_update rfl rfl⟩

theorem acceptErr_ne_ok (errno : Errno) : Wrappers.acceptErr errno ≠ .ok := by
  cases errno with
  | _ => simp [Wrappers.acceptErr]

theorem acceptErr_inter {errno : Errno} (h : Wrappers.acceptErr errno = .inter) : errno = .eintr := by
  cases errno with
  | eintr => rfl
  | _ => cases h

/-- The address of the peer that `accept` answers for the object to the call with the number `n`. -/
def NetSys.acceptedAddr (s : NetSys) (sock : Addr) (n : Nat) : Option SockaddrIn := do
  let object ← s.sockets sock
  let accepted ← (s.os.accept n object.fd (unreleased s.events)).toOption
  return accepted.addr

/-- Nothing else of the system matters for it. -/
theorem NetSys.acceptedAddr_congr (hos : s'.os = s.os) (hsock : s'.sockets sock = s.sockets sock)
    (hevents : s'.events = s.events) : s'.acceptedAddr sock = s.acceptedAddr sock := by
  funext n
  rw [NetSys.acceptedAddr, NetSys.acceptedAddr, hos, hsock, hevents]

/-- What an interruption leaves: the object has no descriptor, and the listening one is as it was. -/
structure AfterInterruption (sock ptr : Addr) (s s' : NetSys) : Prop where
  none : s'.holds ptr = none
  answer : ∃ sockFd fds, s.os.accept s.calls sockFd fds = .error .eintr
  listening : s'.sockets sock = s.sockets sock
  events : s'.events = s.events

/-- What a call of `accept` leaves: the object has a descriptor and the address of the peer, or it has no
    descriptor. -/
structure AfterAccept (P : (Addr → Option Int) → List (Entry Int) → Prop) (sock ptr : Addr) (socks : List Addr)
    (s s' : NetSys) : Prop extends OneCall s s' where
  sound : SoundBy P (ptr :: socks) s'
  addrs : ∀ q ≠ ptr, s'.addrOf q = s.addrOf q
  interrupted : s'.errs.err = .inter → AfterInterruption sock ptr s s'
  answered : s'.errs.err = .ok → s'.addrOf ptr = s.acceptedAddr sock s.calls

theorem acceptCall_spec [Guard P] (h : SoundBy P (ptr :: socks) s) (hmem : sock ∈ socks) (hnone : s.holds ptr = none)
    (herr : s.errs.err ≠ .inter) (addrlen : Nat) :
    Returns (do
      let (fd, addr, addrlen) ← jclAccept (← readSocket sock).fd (← readSocket ptr).addr addrlen
      writeSocket ptr { fd := fd, addr := addr }
      return addrlen) s fun _ s' => AfterAccept P sock ptr socks s s' := by
  have hne : sock ≠ ptr := ne_of_mem_of_not_mem hmem (List.nodup_cons.1 h.nodup).1
  obtain ⟨listening, hlistening, hsockNull, hsockBlock⟩ := h.lookup (List.mem_cons_of_mem ptr hmem)
  obtain ⟨object, hobject, hnull, hblock⟩ := h.lookup List.mem_cons_self
  -- Whatever was written there, the other objects are as they were.
  have haddrs : ∀ {s' : NetSys} {object : NsSocket}, s'.sockets = Function.update s.sockets ptr (some object) →
      ∀ q ≠ ptr, s'.addrOf q = s.addrOf q := by
    intro s' object hsockets q hq
    rw [NetSys.addrOf_update hsockets rfl, Function.update_of_ne hq]
  have hunset : Function.update s.holds ptr none = s.holds := Function.update_eq_self_iff.2 hnone.symm
  simp only [returns_bind, returns_readSocket, hlistening, hobject, Option.some.injEq, exists_eq_left',
    returns_writeSocket, returns_pure, hsockNull, hsockBlock, hnull, hblock, ne_eq, not_false_eq_true, true_and]
  rw [returns_jclAccept]
  cases haccept : s.os.accept s.calls listening.fd (unreleased s.events) with
  | error errno =>
      refine ⟨hblock, ⟨rfl, rfl⟩, ?_, haddrs rfl, fun hinter => ⟨?_, ?_, Function.update_of_ne hne _ _, rfl⟩,
        fun hok => absurd hok (acceptErr_ne_ok errno)⟩
      · refine h.store List.mem_cons_self rfl rfl ?_ h.numbers
        change P (Function.update s.holds ptr none) s.events
        rw [hunset]
        exact h.custody
      · rw [NetSys.holds_update rfl, Function.update_self]
        rfl
      · rw [acceptErr_inter hinter] at haccept
        exact ⟨_, _, haccept⟩
  | ok accepted =>
      obtain ⟨hnonneg, hfresh⟩ := s.os.accept_fresh _ _ _ _ haccept
      refine ⟨hblock, ⟨rfl, rfl⟩, ?_, haddrs rfl, fun hinter => absurd hinter herr, fun _ => ?_⟩
      · exact h.acquire List.mem_cons_self hnone hnonneg hfresh rfl rfl rfl
      · rw [NetSys.addrOf_update rfl rfl, Function.update_self, NetSys.acceptedAddr, hlistening]
        simp [haccept, Except.toOption]

/-- A round does the same, after it reset `*err` where the call before was interrupted. -/
theorem acceptRound_spec [Guard P] (h : SoundBy P (ptr :: socks) s) (hmem : sock ∈ socks) (hnone : s.holds ptr = none)
    (addrlen : Nat) : Returns (acceptRound sock ptr addrlen) s fun _ s' => AfterAccept P sock ptr socks s s' := by
  rw [acceptRound, returns_bind, returns_getErr]
  by_cases hinter : s.errs.err = .inter
  · rw [if_pos hinter, returns_bind, returns_setErr]
    have hcall := acceptCall_spec (h.errs s.calls { s.errs with err := .ok }) hmem hnone (by simp) addrlen
    refine hcall.mono fun _ s' h' => ⟨⟨h'.os, h'.calls⟩, h'.sound, h'.addrs, fun hinter' => ?_, h'.answered⟩
    have hafter := h'.interrupted hinter'
    exact ⟨hafter.none, hafter.answer, hafter.listening, hafter.events⟩
  · rw [if_neg hinter]
    exact acceptCall_spec h hmem hnone hinter addrlen

/-- The coming calls of `accept` are interrupted, so many of them. -/
def Interrupted (os : NetOs) (calls rounds : Nat) : Prop :=
  ∀ k < rounds, ∃ sockFd fds, os.accept (calls + k) sockFd fds = .error .eintr

/-- What the loop leaves: if no error is pending, the object has the address that the last call answered. -/
structure AfterLoop (P : (Addr → Option Int) → List (Entry Int) → Prop) (sock ptr : Addr) (socks : List Addr)
    (s s' : NetSys) : Prop where
  sound : SoundBy P (ptr :: socks) s'
  addrs : ∀ q ≠ ptr, s'.addrOf q = s.addrOf q
  answered : s'.errs.err = .ok → s'.addrOf ptr = s.acceptedAddr sock (s'.calls - 1)

/-- The loop after a round that was interrupted. -/
theorem AfterLoop.again {s₁ : NetSys} (h₁ : AfterAccept P sock ptr socks s s₁) (hinter : s₁.errs.err = .inter)
    (h : AfterLoop P sock ptr socks s₁ s') : AfterLoop P sock ptr socks s s' where
  sound := h.sound
  addrs q hq := (h.addrs q hq).trans (h₁.addrs q hq)
  answered hok := by
    have hafter := h₁.interrupted hinter
    rw [h.answered hok, NetSys.acceptedAddr_congr h₁.os hafter.listening hafter.events]

/-- The loop ends with a descriptor in the object or without one, unless it is interrupted in all its rounds. -/
theorem acceptLoop_spec [Guard P] (h : SoundBy P (ptr :: socks) s) (hmem : sock ∈ socks) (hnone : s.holds ptr = none)
    (rounds addrlen : Nat) : ReturnsUnless (Interrupted s.os s.calls rounds) .diverges
      (acceptLoop sock ptr rounds addrlen) s fun _ s' => AfterLoop P sock ptr socks s s' := by
  induction rounds generalizing s addrlen with
  | zero => exact .inr ⟨fun k hk => absurd hk (Nat.not_lt_zero k), rfl⟩
  | succ rounds ih =>
      rw [acceptLoop]
      refine ReturnsUnless.bind_of (.inl (acceptRound_spec h hmem hnone addrlen)) ?_
      intro addrlen s₁ h₁
      refine ReturnsUnless.bind_of (R := fun err s₂ => err = s₁.errs.err ∧ s₂ = s₁)
        (.inl (returns_getErr.2 ⟨rfl, rfl⟩)) ?_
      rintro _ s₂ ⟨rfl, rfl⟩
      by_cases hinter : s₂.errs.err = .inter
      · rw [if_pos hinter]
        have hafter := h₁.interrupted hinter
        obtain ⟨sockFd, fds, heintr⟩ := hafter.answer
        have hloop := (ih h₁.sound hafter.none addrlen).mono fun _ s' h' => AfterLoop.again h₁ hinter h'
        refine hloop.imp ?_
        intro hrest k hk
        cases k with
        | zero => exact ⟨sockFd, fds, heintr⟩
        | succ k =>
            have hk' := hrest k (Nat.lt_of_succ_lt_succ hk)
            rw [h₁.os, h₁.calls, Nat.add_assoc, Nat.add_comm 1 k] at hk'
            exact hk'
      · rw [if_neg hinter]
        refine .inl (returns_pure.2 ⟨h₁.sound, h₁.addrs, fun hok => ?_⟩)
        rw [h₁.answered hok, h₁.calls, Nat.add_sub_cancel]

/-- The object that comes back is new and may hold a descriptor, and it has the address that the last call of `accept`
    answered; where none comes back, no descriptor stays. -/
theorem accept_spec [Guard P] (h : SoundBy P socks s) (hmem : sock ∈ socks) (rounds : Nat) :
    ReturnsUnless (Interrupted s.os (s.calls + 1) rounds) .diverges (jclNsSocketAccept sock rounds) s
      fun acceptSock s' => (acceptSock = null ∧ SoundBy P socks s' ∧ s'.addrOf = s.addrOf) ∨
        (SoundBy P (acceptSock :: socks) s' ∧ ∃ addr, addr.sinFamily = afInet ∧
          s.acceptedAddr sock (s'.calls - 1) = some addr ∧
          s'.addrOf = Function.update s.addrOf acceptSock (some addr)) := by
  rw [jclNsSocketAccept]
  refine ReturnsUnless.bind_of (.inl (create_spec h)) ?_
  rintro acceptSock s₁ ⟨hone, ⟨rfl, herr, h₁⟩ | ⟨herr, hsockets, hevents, h₁⟩⟩
  · exact .inl ((returns_check_err herr).2 (returns_pure.2 (.inl ⟨rfl, h₁⟩)))
  · have hnone : s₁.holds acceptSock = none := by
      rw [NetSys.holds_update hsockets, Function.update_self]
      rfl
    have haddrs₁ : s₁.addrOf = Function.update s.addrOf acceptSock (some .zero) := NetSys.addrOf_update hsockets rfl
    have hlistening : s₁.sockets sock = s.sockets sock := by
      rw [hsockets, Function.update_of_ne (ne_of_mem_of_not_mem hmem (List.nodup_cons.1 h₁.nodup).1)]
    refine ReturnsUnless.bind_of (R := fun failed s₂ => failed = false ∧ s₂ = s₁)
      (.inl (returns_failed.2 ⟨by simp [herr], rfl⟩)) ?_
    rintro _ s₂ ⟨rfl, rfl⟩
    rw [if_neg Bool.false_ne_true, ← hone.os, ← hone.calls]
    refine ReturnsUnless.bind_of (acceptLoop_spec h₁ hmem hnone rounds _) ?_
    rintro addrlen s₃ ⟨h₃, haddrs₃, hanswered⟩
    have hunused : s.addrOf acceptSock = none :=
      NetSys.addrOf_eq_none fun hobject => (List.nodup_cons.1 h₁.nodup).1 ((h.stored acceptSock).2 hobject)
    have hothers : ∀ q ≠ acceptSock, s₃.addrOf q = s.addrOf q := by
      intro q hq
      rw [haddrs₃ q hq, haddrs₁, Function.update_of_ne hq]
    -- Every exit from here on that gives up the object destroys it.
    have hdestroy : ∀ s₄, SoundBy P (acceptSock :: socks) s₄ → s₄.addrOf = s₃.addrOf → Returns (do
        let _ ← jclNsSocketDestroy (some acceptSock)
        return null) s₄ fun acceptSock' s' => (acceptSock' = null ∧ SoundBy P socks s' ∧ s'.addrOf = s.addrOf) ∨
          (SoundBy P (acceptSock' :: socks) s' ∧ ∃ addr, addr.sinFamily = afInet ∧
            s.acceptedAddr sock (s'.calls - 1) = some addr ∧
            s'.addrOf = Function.update s.addrOf acceptSock' (some addr)) := by
      intro s₄ h₄ haddrs₄
      refine Returns.bind_of (destroy_spec h₄ List.mem_cons_self) ?_
      rintro given s₅ ⟨-, h₅, haddrs₅⟩
      rw [List.erase_cons_head] at h₅
      refine returns_pure.2 (.inl ⟨rfl, h₅, ?_⟩)
      rw [haddrs₅, haddrs₄]
      funext q
      by_cases hq : q = acceptSock
      · subst hq
        rw [Function.update_self, hunused]
      · rw [Function.update_of_ne hq, hothers q hq]
    left
    by_cases herr₃ : s₃.errs.err = .ok
    · rw [returns_check_ok herr₃]
      obtain ⟨object, hobject, hnull, hblock⟩ := h₃.lookup List.mem_cons_self
      simp only [returns_bind, returns_readSocket, hobject, Option.some.injEq, exists_eq_left', hnull, hblock, ne_eq,
        not_false_eq_true, true_and]
      by_cases hpeer : object.addr.sinFamily ≠ afInet ∨ addrlen ≠ sizeofSockaddrIn
      · rw [if_pos hpeer, returns_bind, returns_setErr]
        exact hdestroy _ (h₃.errs _ _) rfl
      · rw [if_neg hpeer]
        have haddr : s₃.addrOf acceptSock = some object.addr := by rw [NetSys.addrOf, hobject, Option.map_some]
        refine returns_pure.2 (.inr ⟨h₃, object.addr, not_not.1 (not_or.1 hpeer).1, ?_, ?_⟩)
        · rw [← haddr, hanswered herr₃, NetSys.acceptedAddr_congr hone.os hlistening hevents]
        · funext q
          by_cases hq : q = acceptSock
          · subst hq
            rw [Function.update_self, haddr]
          · rw [Function.update_of_ne hq, hothers q hq]
    · rw [returns_check_err herr₃]
      exact hdestroy s₃ h₃ rfl

end Jcl.Sockets
