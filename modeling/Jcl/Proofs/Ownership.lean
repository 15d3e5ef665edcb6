/-
Module: Jcl.Proofs.Ownership
Layer: Proofs
Purpose: Who owns what the system handed out, whatever it refuses. The log of the system is a ledger; `Owns` says
  that it is legal and which blocks and streams it leaves, and every value of the walk owns the blocks that its
  pointers name. `Releases` is the contract of the functions that free a value, and `Attempts` that of a
  function that reports in `*err` whether it succeeded, with what decides that.
Imports: Jcl.Lib.Ledger, Jcl.Proofs.FileWalk, Jcl.Spec.WalkRequests
Trusted boundary: none (fully proved)
Main exports: Resource, Sys.Owns, Quiet, Served, Releases, Attempts, Asks, releases_free, releases_closedir,
  releases_pathFree, releases_dirFree, releases_vectorFree, jclMalloc_asks, fioPathInit_asks, fioNameInit_asks,
  fwVectorInit_asks, fwVectorPush_asks, fwVectorToArray_asks
-/
import Jcl.Lib.Ledger
import Jcl.Proofs.FileWalk
import Jcl.Spec.WalkRequests
import Mathlib.Algebra.Order.Group.Multiset
import Mathlib.Algebra.BigOperators.Group.List.Basic
import Mathlib.Tactic.Abel

namespace Jcl

open Ledger

/-- What the system hands out. -/
inductive Resource where
  | block (id : Nat)
  | stream (id : Nat)
deriving DecidableEq, Repr

/-- An event of the system as an entry of a ledger. -/
def Event.entry : Event → Entry Resource
  | .allocated id => .acquired (.block id)
  | .freed id => .released (.block id)
  | .opened id => .acquired (.stream id)
  | .closed id => .released (.stream id)

theorem Event.entry_injective : Function.Injective Event.entry := by
  intro e e' h
  cases e <;> cases e' <;> simp_all [Event.entry]

/-- The log is legal and leaves these resources, and the numbers of the coming calls are fresh. -/
structure Sys.Owns (s : Sys) (owned : Multiset Resource) : Prop where
  balanced : Balanced (s.events.map Event.entry) owned
  allocs_lt : ∀ id, .allocated id ∈ s.events → id < s.allocCalls
  opens_lt : ∀ id, .opened id ∈ s.events → id < s.openCalls

theorem Sys.Owns.of_eq {s : Sys} {owned owned' : Multiset Resource} (h : s.Owns owned) (heq : owned = owned') :
    s.Owns owned' := heq ▸ h

/-- The ledger does not depend on `errno` and `*err`. -/
theorem Sys.Owns.errors {s : Sys} {owned : Multiset Resource} (h : s.Owns owned) (errno : Option Errno)
    (err : JclErr) : Sys.Owns { s with errno := errno, err := err } owned :=
  ⟨h.balanced, h.allocs_lt, h.opens_lt⟩

/-- Nothing but the log changed. -/
structure Quiet (s s' : Sys) : Prop where
  allocs : s'.allocs = s.allocs
  opens : s'.opens = s.opens
  allocCalls : s'.allocCalls = s.allocCalls
  openCalls : s'.openCalls = s.openCalls
  errno : s'.errno = s.errno
  err : s'.err = s.err

theorem Quiet.refl (s : Sys) : Quiet s s := ⟨rfl, rfl, rfl, rfl, rfl, rfl⟩

theorem Quiet.trans {s s' s'' : Sys} (h : Quiet s s') (h' : Quiet s' s'') : Quiet s s'' :=
  ⟨h'.allocs.trans h.allocs, h'.opens.trans h.opens, h'.allocCalls.trans h.allocCalls,
    h'.openCalls.trans h.openCalls, h'.errno.trans h.errno, h'.err.trans h.err⟩

/-- `calls` more allocations were asked for. -/
structure Spent (s s' : Sys) (calls : Nat) : Prop where
  allocs : s'.allocs = s.allocs
  allocCalls : s'.allocCalls = s.allocCalls + calls

theorem Spent.trans {s s' s'' : Sys} {n m : Nat} (h : Spent s s' n) (h' : Spent s' s'' m) :
    Spent s s'' (n + m) :=
  ⟨h'.allocs.trans h.allocs, by rw [h'.allocCalls, h.allocCalls, Nat.add_assoc]⟩

/-- What the next allocations are, after others. -/
theorem Spent.grants {s s' : Sys} {xs ys : List Nat} (h : Spent s s' xs.length) :
    s.Grants (xs ++ ys) ↔ s.Grants xs ∧ s'.Grants ys := by
  unfold Sys.Grants
  rw [grants_append, Bool.and_eq_true, h.allocs, h.allocCalls]

theorem Spent.grants_zero {s s' : Sys} {xs : List Nat} (h : Spent s s' 0) : s.Grants xs ↔ s'.Grants xs := by
  unfold Sys.Grants
  rw [h.allocs, h.allocCalls, Nat.add_zero]

/-- Nothing else was asked for. -/
structure Served (s s' : Sys) (calls : Nat) : Prop extends Spent s s' calls where
  openCalls : s'.openCalls = s.openCalls
  errno : s'.errno = s.errno

theorem Served.refl (s : Sys) : Served s s 0 := ⟨⟨rfl, rfl⟩, rfl, rfl⟩

theorem Served.trans {s s' s'' : Sys} {n m : Nat} (h : Served s s' n) (h' : Served s' s'' m) :
    Served s s'' (n + m) :=
  ⟨h.toSpent.trans h'.toSpent, h'.openCalls.trans h.openCalls, h'.errno.trans h.errno⟩

theorem Quiet.served {s s' : Sys} (h : Quiet s s') : Served s s' 0 :=
  ⟨⟨h.allocs, h.allocCalls⟩, h.openCalls, h.errno⟩

variable {s : Sys} {α β : Type} {F a b : Multiset Resource}

/-! ### Releasing -/

/-- The call releases what the value owns, and nothing else. -/
def Releases (m : SysM α) (owned : Multiset Resource) : Prop :=
  ∀ (s : Sys) (F : Multiset Resource), s.Owns (owned + F) → Returns m s fun _ s' => s'.Owns F ∧ Quiet s s'

theorem Releases.pure (x : α) : Releases (pure x) 0 := by
  intro s F h
  rw [zero_add] at h
  exact returns_pure.2 ⟨h, Quiet.refl s⟩

theorem Releases.bind {m : SysM α} {n : α → SysM β} (hm : Releases m a) (hn : ∀ x, Releases (n x) b) :
    Releases (m >>= n) (a + b) := by
  intro s F h
  rw [add_assoc] at h
  refine Returns.bind_of (hm s (b + F) h) ?_
  rintro x s₁ ⟨h₁, hquiet⟩
  refine (hn x s₁ F h₁).mono ?_
  rintro y s₂ ⟨h₂, hquiet'⟩
  exact ⟨h₂, hquiet.trans hquiet'⟩

/-- The result of a call that releases is not looked at. -/
theorem Releases.then_pure {m : SysM α} (hm : Releases m a) (y : β) : Releases (do let _ ← m; return y) a := by
  have h := hm.bind fun _ => Releases.pure y
  rwa [add_zero] at h

/-- What a pointer owns. -/
def Ptr.owned : Ptr → Multiset Resource
  | .block id => {.block id}
  | _ => 0

theorem Ptr.IsBlock.ne_uninit {ptr : Ptr} (h : ptr.IsBlock) : ptr ≠ .uninit := by
  obtain ⟨id, rfl⟩ := h
  simp

/-- The system after the block was freed. -/
def Sys.freed (s : Sys) (id : Nat) : Sys := { s with events := .freed id :: s.events }

theorem Sys.Owns.freed {id : Nat} (h : s.Owns ({.block id} + F)) : (s.freed id).Owns F := by
  refine ⟨.release h.balanced, ?_, ?_⟩
  · intro other hmem
    exact h.allocs_lt other (List.mem_of_ne_of_mem (by simp) hmem)
  · intro other hmem
    exact h.opens_lt other (List.mem_of_ne_of_mem (by simp) hmem)

theorem releases_free {ptr : Ptr} (hptr : ptr ≠ .uninit) : Releases (free ptr) ptr.owned := by
  cases ptr with
  | uninit => exact absurd rfl hptr
  | null => exact Releases.pure ()
  | block id => exact fun s F h => returns_modify.2 ⟨h.freed, rfl, rfl, rfl, rfl, rfl, rfl⟩

theorem releases_closedir (dir : DirHandle) : Releases (closedir dir) {.stream dir.id} := by
  intro s F h
  refine returns_modify.2 ⟨⟨?_, ?_, ?_⟩, rfl, rfl, rfl, rfl, rfl, rfl⟩
  · exact .release h.balanced
  · intro other hmem
    exact h.allocs_lt other (List.mem_of_ne_of_mem (by simp) hmem)
  · intro other hmem
    exact h.opens_lt other (List.mem_of_ne_of_mem (by simp) hmem)

/-- What an array owns, with what its cells own. -/
def CArray.owned (own : α → Multiset Resource) (array : CArray α) : Multiset Resource :=
  (array.cells.map own).sum + array.ptr.owned

/-- The array was written: it is `NULL` and has no cells, or its cells were written. -/
structure CArray.Written (Ok : α → Prop) (array : CArray α) : Prop where
  ptr : array.ptr ≠ .uninit
  null : array.ptr = .null → array.cells = []
  ok : ∀ item ∈ array.cells, Ok item

theorem CArray.written_null (Ok : α → Prop) : CArray.Written Ok .null :=
  ⟨by simp [CArray.null], fun _ => rfl, fun _ hitem => absurd hitem List.not_mem_nil⟩

theorem CArray.written_of_block {Ok : α → Prop} {array : CArray α} (hptr : array.ptr.IsBlock)
    (hok : ∀ item ∈ array.cells, Ok item) : array.Written Ok := by
  refine ⟨hptr.ne_uninit, ?_, hok⟩
  intro hnull
  obtain ⟨id, hid⟩ := hptr
  rw [hid] at hnull
  cases hnull

theorem releases_cells {freeCell : α → SysM Unit} {own : α → Multiset Resource} {cells : List α}
    (hcells : ∀ item ∈ cells, Releases (freeCell item) (own item)) :
    Releases (cells.forM freeCell) (cells.map own).sum := by
  induction cells with
  | nil => exact Releases.pure PUnit.unit
  | cons item rest ih =>
      rw [List.map_cons, List.sum_cons]
      exact (hcells item List.mem_cons_self).bind fun _ =>
        ih fun other hother => hcells other (List.mem_cons_of_mem item hother)

theorem releases_freeArray {freeCell : α → SysM Unit} {own : α → Multiset Resource} {Ok : α → Prop}
    {array : CArray α} (harray : array.Written Ok) (hcell : ∀ item, Ok item → Releases (freeCell item) (own item)) :
    Releases (freeArray freeCell array) (array.owned own) := by
  unfold freeArray CArray.owned
  cases hptr : array.ptr with
  | uninit => exact absurd hptr harray.ptr
  | null =>
      rw [harray.null hptr]
      exact Releases.pure ()
  | block id =>
      exact (releases_cells fun item hitem => hcell item (harray.ok item hitem)).bind fun _ =>
        @releases_free (.block id) (by simp)

/-! ### What the values of a walk own -/

def FioPath.owned (path : FioPath) : Multiset Resource := path.str.ptr.owned

def FioName.owned (name : FioName) : Multiset Resource := name.str.ptr.owned

def FwFile.owned (file : FwFile) : Multiset Resource := file.name.owned

def FwDir.owned (dir : FwDir) : Multiset Resource := dir.files.owned FwFile.owned + dir.path.owned

def FwVector.owned (own : α → Multiset Resource) (vec : FwVector α) : Multiset Resource := vec.array.owned own

def FwState.owned (state : FwState) : Multiset Resource :=
  state.pathVec.owned FioPath.owned + (state.dirVec.owned FwDir.owned + state.self.owned)

def FwRecord.owned (record : FwRecord) : Multiset Resource := record.dirArray.owned FwDir.owned

/-- A path whose fields were written. -/
def FioPath.Written (path : FioPath) : Prop := path.str.ptr ≠ .uninit

/-- A file whose fields were written. -/
def FwFile.Written (file : FwFile) : Prop := file.name.str.ptr ≠ .uninit

/-- A directory whose fields were written. -/
structure FwDir.Written (dir : FwDir) : Prop where
  files : dir.files.Written FwFile.Written
  path : dir.path.Written

theorem FwVector.Holds.written {Ok Ok' : α → Prop} {view : α → β} {vec : FwVector α} {xs : List β}
    (h : vec.Holds Ok view xs) (hok : ∀ item, Ok item → Ok' item) : vec.array.Written Ok' :=
  CArray.written_of_block h.ptr fun item hitem => hok item (h.ok item hitem)

theorem FwVector.Holds.written_self {Ok : α → Prop} {view : α → β} {vec : FwVector α} {xs : List β}
    (h : vec.Holds Ok view xs) : vec.array.Written Ok := h.written fun _ hitem => hitem

theorem FilesHold.written {vec : FwVector FwFile} {files : List WalkEntry} (h : FilesHold vec files) :
    vec.array.Written FwFile.Written :=
  FwVector.Holds.written h fun _ hfile => hfile.ptr.ne_uninit

theorem PathsHold.written {vec : FwVector FioPath} {paths : List CStr} (h : PathsHold vec paths) :
    vec.array.Written FioPath.Written :=
  FwVector.Holds.written h fun _ hpath => hpath.ptr.ne_uninit

theorem releases_pathFree {path : FioPath} (h : path.Written) : Releases (jfsFioPathFree path) path.owned :=
  (releases_free h).then_pure _

theorem releases_fileFree {file : FwFile} (h : file.Written) : Releases (jfsFwFileFree file) file.owned :=
  Releases.then_pure ((releases_free h).then_pure _) _

theorem releases_dirFree {dir : FwDir} (h : dir.Written) : Releases (jfsFwDirFree dir) dir.owned :=
  (releases_freeArray h.files fun _ hfile => (releases_fileFree hfile).then_pure _).bind fun _ =>
    (releases_pathFree h.path).then_pure _

theorem releases_vectorFree {freeItem : α → SysM α} {own : α → Multiset Resource} {Ok : α → Prop}
    {vec : FwVector α} (hvec : vec.array.Written Ok)
    (hitem : ∀ item, Ok item → Releases (freeItem item) (own item)) :
    Releases (fwVectorFree freeItem vec) (vec.owned own) :=
  (releases_freeArray hvec fun item hok => (hitem item hok).then_pure _).then_pure _

/-- A vector that was freed is overwritten with zeros. -/
theorem fwVectorFree_clears {freeItem : α → SysM α} {vec : FwVector α} {Q : FwVector α → Sys → Prop}
    (h : Returns (fwVectorFree freeItem vec) s Q) :
    Returns (fwVectorFree freeItem vec) s fun vec' s' => vec' = .zero ∧ Q vec' s' := by
  unfold fwVectorFree at h ⊢
  rw [returns_bind] at h ⊢
  exact h.mono fun _ _ hQ => returns_pure.2 ⟨rfl, returns_pure.1 hQ⟩

/-! ### Asking -/

/-- The call reports in `*err` whether it succeeded, which is decided by `p`. The answers that the system will give
    to `opendir` stay as they are. -/
def Attempts (m : SysM α) (s : Sys) (p : Prop) (Good Bad : α → Sys → Prop) : Prop :=
  Returns m s fun a s' =>
    s'.opens = s.opens ∧ ((p ∧ s'.err = .ok ∧ Good a s') ∨ (¬ p ∧ s'.err ≠ .ok ∧ Bad a s'))

/-- The call succeeds if its allocations, of these sizes, are granted. -/
def Asks (m : SysM α) (s : Sys) (sizes : List Nat) (Good Bad : α → Sys → Prop) : Prop :=
  Attempts m s (s.Grants sizes) (fun a s' => Served s s' sizes.length ∧ Good a s')
    (fun a s' => s'.err = .sys ∧ Bad a s')

section

variable {m : SysM α} {exit rest : α → SysM β} {p : Prop} {Good Bad : α → Sys → Prop} {Good' Bad' : β → Sys → Prop}
  {Q : β → Sys → Prop} {xs ys : List Nat}

/-- A call, and the check of `*err` after it. -/
theorem Attempts.check (hm : Attempts m s p Good Bad)
    (hrest : ∀ a s', s'.opens = s.opens → p → s'.err = .ok → Good a s' → Returns (rest a) s' Q)
    (hexit : ∀ a s', s'.opens = s.opens → ¬ p → s'.err ≠ .ok → Bad a s' → Returns (exit a) s' Q) :
    Returns (do let a ← m; if ← failed then exit a else rest a) s Q := by
  refine Returns.bind_of hm ?_
  rintro a s' ⟨hopens, ⟨hp, herr, hgood⟩ | ⟨hp, herr, hbad⟩⟩
  · exact (returns_check_ok herr).2 (hrest a s' hopens hp herr hgood)
  · exact (returns_check_err herr).2 (hexit a s' hopens hp herr hbad)

/-- Where a call and what follows its check return, one of the two ways was taken. -/
theorem Attempts.of_check (hm : Attempts m s p Good Bad)
    (h : Returns (do let a ← m; if ← failed then exit a else rest a) s Q) :
    ∃ a s', (p ∧ s'.err = .ok ∧ Good a s' ∧ Returns (rest a) s' Q) ∨
      (¬ p ∧ s'.err ≠ .ok ∧ Bad a s' ∧ Returns (exit a) s' Q) := by
  rw [returns_bind] at h
  obtain ⟨a, s', -, hQ, -, ⟨hp, herr, hgood⟩ | ⟨hp, herr, hbad⟩⟩ := h.and hm
  · exact ⟨a, s', .inl ⟨hp, herr, hgood, (returns_check_ok herr).1 hQ⟩⟩
  · exact ⟨a, s', .inr ⟨hp, herr, hbad, (returns_check_err herr).1 hQ⟩⟩

theorem Sys.grants_nil (s : Sys) : s.Grants [] := rfl

theorem Sys.Grants.left (h : s.Grants (xs ++ ys)) : s.Grants xs := by
  unfold Sys.Grants at h ⊢
  rw [grants_append, Bool.and_eq_true] at h
  exact h.1

theorem Asks.pure {a : α} (herr : s.err = .ok) (h : Good a s) : Asks (pure a) s [] Good Bad :=
  returns_pure.2 ⟨rfl, .inl ⟨s.grants_nil, herr, Served.refl s, h⟩⟩

/-- A call that asks for `xs`, and then the rest, which asks for `ys`. -/
theorem Asks.bind (hm : Asks m s xs Good Bad)
    (hrest : ∀ a s', s'.err = .ok → Served s s' xs.length → Good a s' → Asks (rest a) s' ys Good' Bad')
    (hexit : ∀ a s', s'.err = .sys → Bad a s' →
      Returns (exit a) s' fun b s'' => s''.opens = s'.opens ∧ s''.err = .sys ∧ Bad' b s'') :
    Asks (do let a ← m; if ← failed then exit a else rest a) s (xs ++ ys) Good' Bad' := by
  refine Attempts.check hm ?_ ?_
  · rintro a s' hopens hxs herr ⟨hserved, hgood⟩
    refine (hrest a s' herr hserved hgood).mono ?_
    rintro b s'' ⟨hopens', ⟨hys, herr', hserved', hgood'⟩ | ⟨hys, herr', hbad'⟩⟩
    · refine ⟨hopens'.trans hopens, .inl ⟨hserved.grants.2 ⟨hxs, hys⟩, herr', ?_, hgood'⟩⟩
      rw [List.length_append]
      exact hserved.trans hserved'
    · exact ⟨hopens'.trans hopens, .inr ⟨fun hboth => hys (hserved.grants.1 hboth).2, herr', hbad'⟩⟩
  · rintro a s' hopens hxs - ⟨herr, hbad⟩
    refine (hexit a s' herr hbad).mono ?_
    rintro b s'' ⟨hopens', herr', hbad'⟩
    have hfailed : s''.err ≠ .ok := by simp [herr']
    exact ⟨hopens'.trans hopens, .inr ⟨fun hboth => hxs hboth.left, hfailed, herr', hbad'⟩⟩

/-- A call that asks for `xs`, and then a rest that asks for nothing. -/
theorem Asks.last (hm : Asks m s xs Good Bad)
    (hrest : ∀ a s', s'.err = .ok → Good a s' → Asks (rest a) s' [] Good' Bad')
    (hexit : ∀ a s', s'.err = .sys → Bad a s' →
      Returns (exit a) s' fun b s'' => s''.opens = s'.opens ∧ s''.err = .sys ∧ Bad' b s'') :
    Asks (do let a ← m; if ← failed then exit a else rest a) s xs Good' Bad' := by
  have h := Asks.bind hm (fun a s' herr _ hgood => hrest a s' herr hgood) hexit
  rwa [List.append_nil] at h

/-- The rest may use whether the allocations were granted. -/
theorem Asks.decided (hm : Asks m s xs Good Bad) :
    Asks m s xs (fun a s' => s.Grants xs ∧ Good a s') fun a s' => ¬ s.Grants xs ∧ Bad a s' := by
  refine Returns.mono hm ?_
  rintro a s' ⟨hopens, ⟨hxs, herr, hserved, hgood⟩ | ⟨hxs, herr, hsys, hbad⟩⟩
  · exact ⟨hopens, .inl ⟨hxs, herr, hserved, hxs, hgood⟩⟩
  · exact ⟨hopens, .inr ⟨hxs, herr, hsys, hxs, hbad⟩⟩

/-- The same call with other words for what it leaves. -/
theorem Asks.mono (hm : Asks m s xs Good Bad) {Good₁ Bad₁ : α → Sys → Prop}
    (hgood : ∀ a s', s'.err = .ok → Good a s' → Good₁ a s') (hbad : ∀ a s', Bad a s' → Bad₁ a s') :
    Asks m s xs Good₁ Bad₁ := by
  refine Returns.mono hm ?_
  rintro a s' ⟨hopens, ⟨hxs, herr, hserved, h⟩ | ⟨hxs, herr, hsys, h⟩⟩
  · exact ⟨hopens, .inl ⟨hxs, herr, hserved, hgood a s' herr h⟩⟩
  · exact ⟨hopens, .inr ⟨hxs, herr, hsys, hbad a s' h⟩⟩

end

/-! ### Memory and streams -/

/-- The block of the coming allocation was not handed out yet. -/
theorem Sys.Owns.fresh_block (h : s.Owns F) :
    .acquired (.block s.allocCalls) ∉ s.events.map Event.entry := by
  intro hmem
  obtain ⟨event, hevent, hentry⟩ := List.mem_map.1 hmem
  have heq : event = .allocated s.allocCalls := Event.entry_injective hentry
  subst heq
  exact Nat.lt_irrefl _ (h.allocs_lt _ hevent)

/-- Nor was the stream of the coming `opendir`. -/
theorem Sys.Owns.fresh_stream (h : s.Owns F) :
    .acquired (.stream s.openCalls) ∉ s.events.map Event.entry := by
  intro hmem
  obtain ⟨event, hevent, hentry⟩ := List.mem_map.1 hmem
  have heq : event = .opened s.openCalls := Event.entry_injective hentry
  subst heq
  exact Nat.lt_irrefl _ (h.opens_lt _ hevent)

theorem Sys.Owns.granted (h : s.Owns F) : s.granted.Owns ({.block s.allocCalls} + F) := by
  refine ⟨?_, ?_, ?_⟩
  · rw [Multiset.singleton_add]
    exact .acquire h.balanced h.fresh_block
  · intro id hmem
    rcases List.mem_cons.1 hmem with heq | hmem
    · cases heq
      exact Nat.lt_succ_self _
    · exact Nat.lt_succ_of_lt (h.allocs_lt id hmem)
  · intro id hmem
    exact h.opens_lt id (List.mem_of_ne_of_mem (by simp) hmem)

theorem Sys.Owns.refused (h : s.Owns F) : s.refused.Owns F :=
  ⟨h.balanced, fun id hmem => Nat.lt_succ_of_lt (h.allocs_lt id hmem), h.opens_lt⟩

theorem Sys.grants_singleton {size : Nat} : s.Grants [size] ↔ s.allocs s.allocCalls size = true := by
  simp [Sys.Grants, Jcl.grants]

theorem jclMalloc_asks (herr : s.err = .ok) (hown : s.Owns F) (size : Nat) :
    Asks (jclMalloc size) s [size] (fun ptr s' => ptr.IsBlock ∧ s'.Owns (ptr.owned + F))
      (fun ptr s' => ptr = .null ∧ s'.Owns F) := by
  unfold Asks Attempts
  rw [returns_jclMalloc, Sys.grants_singleton]
  split
  · case isTrue h => exact ⟨rfl, .inl ⟨h, herr, ⟨⟨rfl, rfl⟩, rfl, rfl⟩, ⟨_, rfl⟩, hown.granted⟩⟩
  · case isFalse h => exact ⟨rfl, .inr ⟨h, by simp, rfl, rfl, hown.refused⟩⟩

/-- `jcl_realloc` of a block, granted or refused. -/
theorem returns_jclRealloc {old size : Nat} {Q : Ptr → Sys → Prop} : Returns (jclRealloc (.block old) size) s Q ↔
    if s.allocs s.allocCalls size = true then Q (.block s.allocCalls) (s.freed old).granted else Q .null s.refused := by
  unfold jclRealloc
  by_cases hgrant : s.allocs s.allocCalls size = true
  · simp only [hgrant, if_true, returns_bind, returns_get, returns_set, returns_pure, Sys.freed, Sys.granted]
  · simp only [hgrant, if_false, returns_bind, returns_get, returns_set, returns_pure, Sys.refused,
      Bool.false_eq_true]

theorem jclRealloc_asks (herr : s.err = .ok) {ptr : Ptr} (hptr : ptr.IsBlock) (hown : s.Owns (ptr.owned + F))
    (size : Nat) :
    Asks (jclRealloc ptr size) s [size] (fun ptr' s' => ptr'.IsBlock ∧ s'.Owns (ptr'.owned + F))
      (fun _ s' => s'.Owns (ptr.owned + F)) := by
  obtain ⟨old, rfl⟩ := hptr
  unfold Asks Attempts
  rw [returns_jclRealloc, Sys.grants_singleton]
  split
  · case isTrue h => exact ⟨rfl, .inl ⟨h, herr, ⟨⟨rfl, rfl⟩, rfl, rfl⟩, ⟨_, rfl⟩, hown.freed.granted⟩⟩
  · case isFalse h => exact ⟨rfl, .inr ⟨h, by simp, rfl, hown.refused⟩⟩

/-- The stream of an `opendir` that succeeded. -/
def streamOwned : Option DirHandle → Multiset Resource
  | none => 0
  | some dir => {.stream dir.id}

theorem jclOpendir_attempts (herr : s.err = .ok) (hown : s.Owns F) (path : CStr) :
    Attempts (jclOpendir path) s (∃ stream, s.opens s.openCalls path = .ok stream)
      (fun dir s' => (∃ handle, dir = some handle ∧ s.opens s.openCalls path = .ok handle.stream) ∧
        Spent s s' 0 ∧ s'.Owns (streamOwned dir + F))
      (fun dir s' => dir = none ∧ s'.Owns F) := by
  unfold Attempts jclOpendir
  cases hopen : s.opens s.openCalls path with
  | ok stream =>
      simp only [returns_bind, returns_get, hopen, returns_set, returns_pure]
      refine ⟨trivial, .inl ⟨⟨stream, rfl⟩, herr, ⟨_, rfl, rfl⟩, ⟨rfl, rfl⟩, ?_, ?_, ?_⟩⟩
      · change Balanced (.acquired (.stream s.openCalls) :: s.events.map Event.entry) ({.stream s.openCalls} + F)
        rw [Multiset.singleton_add]
        exact .acquire hown.balanced hown.fresh_stream
      · intro id hmem
        exact hown.allocs_lt id (List.mem_of_ne_of_mem (by simp) hmem)
      · intro id hmem
        rcases List.mem_cons.1 hmem with heq | hmem
        · cases heq
          exact Nat.lt_succ_self _
        · exact Nat.lt_succ_of_lt (hown.opens_lt id hmem)
  | error errno =>
      simp only [returns_bind, returns_get, hopen, returns_set, returns_pure]
      refine ⟨trivial, .inr ⟨?_, ?_, trivial, hown.balanced, hown.allocs_lt, ?_⟩⟩
      · rintro ⟨stream, hstream⟩
        cases hstream
      · cases errno <;> simp [opendirErr]
      · exact fun id hmem => Nat.lt_succ_of_lt (hown.opens_lt id hmem)

/-! ### Paths and names -/

theorem fioPathInit_asks (herr : s.err = .ok) (hown : s.Owns F) (pathInit : FioPath) {str : CStr}
    (hfits : (normalPath str).length ≤ pathMax) :
    Asks (jfsFioPathInit pathInit str) s [(normalPath str).length + 1]
      (fun path s' => path.Holds (normalPath str) ∧ s'.Owns (path.owned + F))
      (fun path s' => path = pathInit ∧ s'.Owns F) := by
  unfold Asks Attempts
  rw [returns_jfsFioPathInit herr, if_neg (Nat.not_lt.2 hfits), Sys.grants_singleton]
  split
  · case isTrue h =>
      exact ⟨rfl, .inl ⟨h, herr, ⟨⟨rfl, rfl⟩, rfl, rfl⟩, FioPath.ofText_holds _ _, hown.granted⟩⟩
  · case isFalse h => exact ⟨rfl, .inr ⟨h, by simp, rfl, rfl, hown.refused⟩⟩

/-- A path that is too long is reported. -/
theorem fioPathInit_attempts (herr : s.err = .ok) (hown : s.Owns F) (pathInit : FioPath) (str : CStr) :
    Attempts (jfsFioPathInit pathInit str) s
      ((normalPath str).length ≤ pathMax ∧ s.Grants [(normalPath str).length + 1])
      (fun path s' => path.Holds (normalPath str) ∧ s'.Owns (path.owned + F))
      (fun path s' => path = pathInit ∧ s'.Owns F) := by
  by_cases hfits : (normalPath str).length ≤ pathMax
  · refine Returns.mono (fioPathInit_asks herr hown pathInit hfits) ?_
    rintro path s' ⟨hopens, ⟨hgrants, herr', -, hgood⟩ | ⟨hrefused, herr', -, hbad⟩⟩
    · exact ⟨hopens, .inl ⟨⟨hfits, hgrants⟩, herr', hgood⟩⟩
    · exact ⟨hopens, .inr ⟨fun h => hrefused h.2, herr', hbad⟩⟩
  · unfold Attempts
    rw [returns_jfsFioPathInit herr, if_pos (Nat.not_le.1 hfits)]
    exact ⟨rfl, .inr ⟨fun h => hfits h.1, by simp, rfl, hown.errors s.errno .fioPathLen⟩⟩

theorem fioNameInit_asks (herr : s.err = .ok) (hown : s.Owns F) (nameInit : FioName) {str : CStr}
    (hfits : str.length ≤ nameMax) :
    Asks (jfsFioNameInit nameInit str) s [str.length + 1]
      (fun name s' => name.Holds str ∧ s'.Owns (name.owned + F))
      (fun name s' => name = nameInit ∧ s'.Owns F) := by
  unfold Asks Attempts
  rw [returns_jfsFioNameInit herr, if_neg (Nat.not_lt.2 hfits), Sys.grants_singleton]
  split
  · case isTrue h =>
      exact ⟨rfl, .inl ⟨h, herr, ⟨⟨rfl, rfl⟩, rfl, rfl⟩, FioName.ofText_holds _ _, hown.granted⟩⟩
  · case isFalse h => exact ⟨rfl, .inr ⟨h, by simp, rfl, rfl, hown.refused⟩⟩

/-! ### Vectors -/

section

variable {Ok : α → Prop} {view : α → β} {vec : FwVector α} {xs : List β} {own : α → Multiset Resource}

theorem fwVectorInit_asks (herr : s.err = .ok) (hown : s.Owns F) (size defaultCapacity : Nat) (vec : FwVector α) :
    Asks (fwVectorInit size defaultCapacity vec) s [size * defaultCapacity]
      (fun vec' s' => (vec'.Holds Ok view [] ∧ vec'.capacity = defaultCapacity) ∧ s'.Owns (vec'.owned own + F))
      (fun vec' s' => vec' = vec ∧ s'.Owns F) := by
  unfold fwVectorInit
  refine Asks.last (jclMalloc_asks herr hown _) ?_ ?_
  · rintro ptr s₁ herr₁ ⟨hptr, hown₁⟩
    refine Asks.pure herr₁ ⟨⟨⟨hptr, fun item hitem => absurd hitem List.not_mem_nil, rfl⟩, rfl⟩, ?_⟩
    simpa [FwVector.owned, CArray.owned] using hown₁
  · rintro ptr s₁ herr₁ ⟨-, hown₁⟩
    exact returns_pure.2 ⟨rfl, herr₁, rfl, hown₁⟩

theorem fwVectorPush_asks (herr : s.err = .ok) (size : Nat) {transfer : α → α × α} {item cleared : α}
    (htransfer : transfer item = (item, cleared)) (hvec : vec.Holds Ok view xs) (hitem : Ok item)
    (hown : s.Owns (vec.owned own + (own item + F))) :
    Asks (fwVectorPush size transfer vec item) s (pushRequests size vec.capacity vec.count)
      (fun r s' => (r.1.Holds Ok view (xs ++ [view item]) ∧ r.1.array.cells = vec.array.cells ++ [item] ∧
        r.1.capacity = pushCapacity vec.capacity vec.count ∧ r.2 = cleared) ∧ s'.Owns (r.1.owned own + F))
      (fun r s' => r = (vec, item) ∧ s'.Owns (vec.owned own + (own item + F))) := by
  have hcells : ∀ ptr : Ptr, CArray.owned own { ptr := ptr, cells := vec.array.cells ++ [item] } + F =
      ptr.owned + ((vec.array.cells.map own).sum + (own item + F)) := by
    intro ptr
    simp only [CArray.owned, List.map_append, List.map_cons, List.map_nil, List.sum_append, List.sum_cons,
      List.sum_nil]
    abel
  unfold fwVectorPush pushRequests pushCapacity
  simp only [htransfer]
  by_cases hfull : vec.count ≥ vec.capacity
  · simp only [hfull, if_true]
    have hownPtr : s.Owns (vec.array.ptr.owned + ((vec.array.cells.map own).sum + (own item + F))) := by
      rw [FwVector.owned, CArray.owned] at hown
      convert hown using 1
      abel
    refine Asks.last (jclRealloc_asks herr hvec.ptr hownPtr _) ?_ ?_
    · rintro ptr s₁ herr₁ ⟨hptr, hown₁⟩
      refine Asks.pure herr₁ ⟨⟨hvec.append hitem hptr, rfl, rfl, rfl⟩, ?_⟩
      rw [FwVector.owned, hcells]
      exact hown₁
    · intro ptr s₁ herr₁ hown₁
      refine returns_pure.2 ⟨rfl, herr₁, rfl, ?_⟩
      rw [FwVector.owned, CArray.owned]
      convert hown₁ using 1
      abel
  · simp only [hfull, if_false]
    refine Asks.pure herr ⟨⟨hvec.append hitem hvec.ptr, rfl, rfl, rfl⟩, ?_⟩
    rw [FwVector.owned, hcells]
    convert hown using 1
    rw [FwVector.owned, CArray.owned]
    abel

theorem fwVectorToArray_asks (herr : s.err = .ok) (size : Nat) (hvec : vec.Holds Ok view xs) (hne : xs ≠ [])
    (hown : s.Owns (vec.owned own + F)) :
    Asks (fwVectorToArray size vec) s [size * xs.length]
      (fun r s' => (r.1.ptr.IsBlock ∧ r.1.cells = vec.array.cells ∧ r.2 = .zero) ∧ s'.Owns (r.1.owned own + F))
      (fun r s' => r = (.null, vec) ∧ s'.Owns (vec.owned own + F)) := by
  have hcount : vec.count ≠ 0 := by
    rw [hvec.count]
    exact fun hzero => hne (List.length_eq_zero_iff.1 hzero)
  have hownPtr : s.Owns (vec.array.ptr.owned + ((vec.array.cells.map own).sum + F)) := by
    rw [FwVector.owned, CArray.owned] at hown
    convert hown using 1
    abel
  unfold fwVectorToArray
  simp only [hcount, if_false]
  rw [hvec.count]
  refine Asks.last (jclRealloc_asks herr hvec.ptr hownPtr _) ?_ ?_
  · rintro ptr s₁ herr₁ ⟨hptr, hown₁⟩
    refine Asks.pure herr₁ ⟨⟨hptr, rfl, rfl⟩, ?_⟩
    rw [CArray.owned]
    convert hown₁ using 1
    abel
  · intro ptr s₁ herr₁ hown₁
    refine returns_pure.2 ⟨rfl, herr₁, rfl, ?_⟩
    rw [FwVector.owned, CArray.owned]
    convert hown₁ using 1
    abel

/-! ### With an error pending -/

/-- A vector is not written, and the memory that it gets is lost. -/
theorem fwVectorInit_blocked (herr : s.err ≠ .ok) (hown : s.Owns F) (size defaultCapacity : Nat) (vec : FwVector α) :
    Returns (fwVectorInit size defaultCapacity vec) s fun vec' s' => vec' = vec ∧ s'.err ≠ .ok ∧
      s'.opens = s.opens ∧ (s.Grants [size * defaultCapacity] → s'.Owns ({.block s.allocCalls} + F)) ∧
      (¬ s.Grants [size * defaultCapacity] → s'.Owns F) := by
  have hgranted : s.granted.err ≠ .ok := herr
  have hrefused : s.refused.err ≠ .ok := by simp
  unfold fwVectorInit
  rw [returns_bind, returns_jclMalloc, Sys.grants_singleton]
  split
  · case isTrue h =>
      refine (returns_check_err hgranted).2 (returns_pure.2 ⟨rfl, hgranted, rfl, fun _ => hown.granted, ?_⟩)
      exact fun hnot => absurd h hnot
  · case isFalse h =>
      refine (returns_check_err hrefused).2 (returns_pure.2 ⟨rfl, hrefused, rfl, ?_, fun _ => hown.refused⟩)
      exact fun hgrant => absurd hgrant h

/-- An array stays with its vector, although its block was freed where the smaller one was granted. -/
theorem fwVectorToArray_blocked (herr : s.err ≠ .ok) (size : Nat) (hvec : vec.Holds Ok view xs) (hne : xs ≠ [])
    (hown : s.Owns (vec.owned own + F)) :
    Returns (fwVectorToArray size vec) s fun r s' => r = (.null, vec) ∧ s'.err ≠ .ok ∧ s'.opens = s.opens ∧
      (s.Grants [size * xs.length] → ∃ rest, s'.Owns ({.block s.allocCalls} + rest)) ∧
      (¬ s.Grants [size * xs.length] → s'.Owns (vec.owned own + F)) := by
  have hcount : vec.count ≠ 0 := by
    rw [hvec.count]
    exact fun hzero => hne (List.length_eq_zero_iff.1 hzero)
  obtain ⟨old, hold⟩ := hvec.ptr
  have hownPtr : s.Owns ({.block old} + ((vec.array.cells.map own).sum + F)) := by
    rw [FwVector.owned, CArray.owned, hold, Ptr.owned] at hown
    convert hown using 1
    abel
  have hgranted : (s.freed old).granted.err ≠ .ok := herr
  have hrefused : s.refused.err ≠ .ok := by simp
  unfold fwVectorToArray
  rw [if_neg hcount, hvec.count, hold, returns_bind, returns_jclRealloc, Sys.grants_singleton]
  split
  · case isTrue h =>
      refine (returns_check_err hgranted).2 (returns_pure.2 ⟨rfl, hgranted, rfl, ?_, fun hnot => absurd h hnot⟩)
      exact fun _ => ⟨_, hownPtr.freed.granted⟩
  · case isFalse h =>
      refine (returns_check_err hrefused).2 (returns_pure.2 ⟨rfl, hrefused, rfl, ?_, fun _ => hown.refused⟩)
      exact fun hgrant => absurd hgrant h

end

end Jcl
