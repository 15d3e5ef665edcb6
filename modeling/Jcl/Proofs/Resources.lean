/-
Module: Jcl.Proofs.Resources
Layer: Proofs
Purpose: The calls on the system where every allocation is granted: they return, and but for the numbers of the
  calls and the log of events they leave the system as it was.
Imports: Jcl.Resources
Trusted boundary: none (fully proved)
Main exports: Frame, Serving, jclMalloc_spec, jclRealloc_spec, free_spec, jclOpendir_opens, jclOpendir_fails
-/
import Jcl.Resources

namespace Jcl

/-- What a call leaves alone when nothing that it asks for is refused. -/
structure Frame (s s' : Sys) : Prop where
  allocs : s'.allocs = s.allocs
  opens : s'.opens = s.opens
  errno : s'.errno = s.errno
  err : s'.err = s.err

theorem Frame.refl (s : Sys) : Frame s s := ⟨rfl, rfl, rfl, rfl⟩

theorem Frame.trans {s s' s'' : Sys} (h : Frame s s') (h' : Frame s' s'') : Frame s s'' :=
  ⟨h'.allocs.trans h.allocs, h'.opens.trans h.opens, h'.errno.trans h.errno, h'.err.trans h.err⟩

/-- Every allocation is granted, and no error is pending. -/
structure Serving (s : Sys) : Prop where
  allocs : ∀ id size, s.allocs id size = true
  err : s.err = .ok

theorem Serving.frame {s s' : Sys} (h : Serving s) (hframe : Frame s s') : Serving s' :=
  ⟨by rw [hframe.allocs]; exact h.allocs, by rw [hframe.err]; exact h.err⟩

/-- The pointer was returned by an allocation. -/
def Ptr.IsBlock (ptr : Ptr) : Prop := ∃ id, ptr = .block id

variable {s : Sys}

/-! ### The error variable -/

@[simp] theorem returns_getErr {Q : JclErr → Sys → Prop} : Returns getErr s Q ↔ Q s.err s := by
  simp [getErr]

@[simp] theorem returns_failed {Q : Bool → Sys → Prop} : Returns failed s Q ↔ Q (s.err != .ok) s := by
  simp [failed]

@[simp] theorem returns_setErr {err : JclErr} {Q : Unit → Sys → Prop} :
    Returns (setErr err) s Q ↔ Q () { s with err := err } := by
  simp [setErr]

@[simp] theorem returns_remapErr {fromVar toVar : JclErr} {Q : Unit → Sys → Prop} :
    Returns (remapErr fromVar toVar) s Q ↔ Q () (if s.err = fromVar then { s with err := toVar } else s) := by
  simp [remapErr]

/-- A check of `*err` that passes. -/
theorem returns_check_ok {α : Type} (herr : s.err = .ok) {exit rest : SysM α} {Q : α → Sys → Prop} :
    Returns (do if ← failed then exit else rest) s Q ↔ Returns rest s Q := by
  simp [herr]

/-- A check of `*err` that takes the exit. -/
theorem returns_check_err {α : Type} (herr : s.err ≠ .ok) {exit rest : SysM α} {Q : α → Sys → Prop} :
    Returns (do if ← failed then exit else rest) s Q ↔ Returns exit s Q := by
  have hfailed : (s.err != .ok) = true := bne_iff_ne.2 herr
  rw [returns_bind, returns_failed, hfailed, if_pos rfl]

theorem Serving.check {α : Type} (h : Serving s) {exit rest : SysM α} {Q : α → Sys → Prop} :
    Returns (do if ← failed then exit else rest) s Q ↔ Returns rest s Q := returns_check_ok h.err

/-- A call that is granted what it asks for, and the check of `*err` after it. -/
theorem Serving.call {α β : Type} (h : Serving s) {m : SysM α} {exit rest : α → SysM β} {P : α → Prop}
    {Q : β → Sys → Prop} (hm : Returns m s fun a s' => P a ∧ Frame s s')
    (hrest : ∀ a s', P a → Frame s s' → Serving s' → Returns (rest a) s' Q) :
    Returns (do let a ← m; if ← failed then exit a else rest a) s Q :=
  Returns.bind_of hm fun a s' ⟨ha, hframe⟩ =>
    (h.frame hframe).check.2 (hrest a s' ha hframe (h.frame hframe))

/-! ### Memory -/

/-- The system after an allocation that it granted. -/
def Sys.granted (s : Sys) : Sys :=
  { s with allocCalls := s.allocCalls + 1, events := .allocated s.allocCalls :: s.events }

/-- The system after an allocation that it refused. -/
def Sys.refused (s : Sys) : Sys :=
  { s with allocCalls := s.allocCalls + 1, errno := some enomem, err := .sys }

@[simp] theorem Sys.granted_err : s.granted.err = s.err := rfl
@[simp] theorem Sys.granted_allocs : s.granted.allocs = s.allocs := rfl
@[simp] theorem Sys.granted_allocCalls : s.granted.allocCalls = s.allocCalls + 1 := rfl
@[simp] theorem Sys.refused_err : s.refused.err = .sys := rfl

/-- `jcl_malloc`, granted or refused. -/
theorem returns_jclMalloc {size : Nat} {Q : Ptr → Sys → Prop} : Returns (jclMalloc size) s Q ↔
    if s.allocs s.allocCalls size = true then Q (.block s.allocCalls) s.granted else Q .null s.refused := by
  unfold jclMalloc
  rw [returns_bind, returns_get]
  by_cases hgrant : s.allocs s.allocCalls size = true
  · simp only [hgrant, if_true, returns_bind, returns_set, returns_pure, Sys.granted]
  · simp only [hgrant, if_false, returns_bind, returns_set, returns_pure, Sys.refused, Bool.false_eq_true]

theorem jclMalloc_spec (h : Serving s) (size : Nat) :
    Returns (jclMalloc size) s fun ptr s' => ptr.IsBlock ∧ Frame s s' := by
  simp only [jclMalloc, returns_bind, returns_get, h.allocs, if_true, returns_set, returns_pure]
  exact ⟨⟨s.allocCalls, rfl⟩, rfl, rfl, rfl, rfl⟩

theorem jclRealloc_spec (h : Serving s) {ptr : Ptr} (hptr : ptr.IsBlock) (size : Nat) :
    Returns (jclRealloc ptr size) s fun ptr' s' => ptr'.IsBlock ∧ Frame s s' := by
  obtain ⟨old, rfl⟩ := hptr
  simp only [jclRealloc, returns_bind, returns_get, h.allocs, if_true, returns_set, returns_pure]
  exact ⟨⟨s.allocCalls, rfl⟩, rfl, rfl, rfl, rfl⟩

theorem free_spec {ptr : Ptr} (hptr : ptr ≠ .uninit) :
    Returns (free ptr) s fun _ s' => Frame s s' := by
  cases ptr with
  | uninit => exact absurd rfl hptr
  | null => exact returns_pure.2 (Frame.refl s)
  | block id => exact returns_modify.2 ⟨rfl, rfl, rfl, rfl⟩

theorem CArray.read_spec {α : Type} {array : CArray α} (hptr : array.ptr.IsBlock) {Q : List α → Sys → Prop} :
    Returns array.read s Q ↔ Q array.cells s := by
  obtain ⟨id, hid⟩ := hptr
  simp only [CArray.read, hid, returns_pure]

theorem freeArray_null {α : Type} (freeCell : α → SysM Unit) :
    Returns (freeArray freeCell .null) s fun _ s' => Frame s s' :=
  returns_pure.2 (Frame.refl s)

/-- An array without written cells. -/
theorem freeArray_empty {α : Type} (freeCell : α → SysM Unit) {array : CArray α} (hptr : array.ptr.IsBlock)
    (hcells : array.cells = []) : Returns (freeArray freeCell array) s fun _ s' => Frame s s' := by
  obtain ⟨id, hid⟩ := hptr
  have hfree : Returns (free (.block id)) s fun _ s' => Frame s s' := free_spec (by simp)
  have hnone : ([] : List α).forM freeCell = pure ⟨⟩ := rfl
  simpa only [freeArray, hid, hcells, hnone, returns_bind, returns_pure] using hfree

/-! ### Directory streams -/

theorem jclOpendir_opens {path : CStr} {stream : DirStream} (h : s.opens s.openCalls path = .ok stream) :
    Returns (jclOpendir path) s fun dir s' =>
      (∃ id, dir = some { id := id, stream := stream }) ∧ Frame s s' := by
  simp only [jclOpendir, returns_bind, returns_get, h, returns_set, returns_pure]
  exact ⟨⟨s.openCalls, rfl⟩, rfl, rfl, rfl, rfl⟩

theorem jclOpendir_fails {path : CStr} {errno : Errno} (h : s.opens s.openCalls path = .error errno) :
    Returns (jclOpendir path) s fun dir s' =>
      dir = none ∧ s'.err = opendirErr errno ∧ s'.allocs = s.allocs ∧ s'.opens = s.opens := by
  simp only [jclOpendir, returns_bind, returns_get, h, returns_set, returns_pure, and_self]

theorem closedir_spec (dir : DirHandle) : Returns (closedir dir) s fun _ s' => Frame s s' :=
  returns_modify.2 ⟨rfl, rfl, rfl, rfl⟩

end Jcl
