/-
Module: Jcl.Spec.WalkRequests
Layer: Spec
Purpose: What a step of the walk asks the system for, as a function of the vectors and of the listing alone: the
  sizes of its allocations in their order, and whether the listing can be scanned at all. Which of them is
  refused decides how the step ends.
Imports: Jcl.Spec.DirectoryTree
Trusted boundary: human-reviewed spec
Main exports: Sys.Grants, pushRequests, fillRequests, Scannable, StepRequests, stepRequests, Sys.Lists,
  Sys.GrantsStep, Sys.GrantsPush
-/
import Jcl.Spec.DirectoryTree

namespace Jcl

/-- The allocations of these sizes are granted, beginning with number `n`. -/
def grants (allocs : Nat → Nat → Bool) : Nat → List Nat → Bool
  | _, [] => true
  | n, size :: rest => allocs n size && grants allocs (n + 1) rest

/-- The next allocations are granted, if they are of these sizes. -/
def Sys.Grants (s : Sys) (sizes : List Nat) : Prop := grants s.allocs s.allocCalls sizes = true

instance (s : Sys) (sizes : List Nat) : Decidable (s.Grants sizes) := inferInstanceAs (Decidable (_ = true))

theorem grants_append (allocs : Nat → Nat → Bool) (n : Nat) (xs ys : List Nat) :
    grants allocs n (xs ++ ys) = (grants allocs n xs && grants allocs (n + xs.length) ys) := by
  induction xs generalizing n with
  | nil => rfl
  | cons x xs ih =>
      simp only [List.cons_append, grants, ih, List.length_cons, Bool.and_assoc]
      rw [Nat.add_assoc, Nat.add_comm 1]

/-- A push asks for a larger array when the vector is full. -/
def pushRequests (size capacity count : Nat) : List Nat :=
  if count ≥ capacity then [size * (capacity * 2)] else []

/-- The capacity of a vector after a push. -/
def pushCapacity (capacity count : Nat) : Nat := if count ≥ capacity then capacity * 2 else capacity

/-- Pushing items that own these strings: each asks for its string and then for its place. -/
def fillRequests (size : Nat) : Nat → Nat → List CStr → List Nat
  | _, _, [] => []
  | capacity, count, str :: rest =>
      (str.length + 1) :: pushRequests size capacity count ++
        fillRequests size (pushCapacity capacity count) (count + 1) rest

/-- A listing that ends without an error and has no entry that the scan ends at. -/
structure Scannable (stream : DirStream) : Prop where
  error : stream.error = none
  known : ∀ ent ∈ stream.entries, ent.isDots = false → ent.dType ≠ .unknown
  names : ∀ file ∈ keptEntries stream.entries, file.name.length ≤ nameMax

theorem scannable_cons {ent : Dirent} {rest : List Dirent} {error : Option Errno} :
    Scannable { entries := ent :: rest, error := error } ↔
      (ent.isDots = false → ent.dType ≠ .unknown) ∧
        (∀ file, keptEntry ent = some file → file.name.length ≤ nameMax) ∧
        Scannable { entries := rest, error := error } := by
  constructor
  · rintro ⟨herror, hknown, hnames⟩
    refine ⟨hknown ent List.mem_cons_self, ?_, herror, ?_, ?_⟩
    · exact fun file hfile => hnames file (mem_keptEntries.2 ⟨ent, List.mem_cons_self, hfile⟩)
    · exact fun other hother => hknown other (List.mem_cons_of_mem ent hother)
    · intro file hfile
      obtain ⟨other, hother, hkept⟩ := mem_keptEntries.1 hfile
      exact hnames file (mem_keptEntries.2 ⟨other, List.mem_cons_of_mem ent hother, hkept⟩)
  · rintro ⟨hent, hfile, herror, hknown, hnames⟩
    refine ⟨herror, ?_, ?_⟩
    · intro other hother
      rcases List.mem_cons.1 hother with rfl | hother
      · exact hent
      · exact hknown other hother
    · intro file hmem
      obtain ⟨other, hother, hkept⟩ := mem_keptEntries.1 hmem
      rcases List.mem_cons.1 hother with rfl | hother
      · exact hfile file hkept
      · exact hnames file (mem_keptEntries.2 ⟨other, hother, hkept⟩)

/-- The requests for the array of a record: a directory without files has none. -/
def filesRequests (files : List WalkEntry) : List Nat :=
  if files = [] then [] else [sizeofFwFile * files.length]

/-- What a step asks for in its four parts: for its vector of files, for the scan, for the directories that it found,
    and for the record. The requests `first` are those of `dirs` that are for the first directory. -/
structure StepRequests where
  init : List Nat
  scan : List Nat
  first : List Nat
  dirs : List Nat
  record : List Nat

/-- The requests of a step that visits `path` and finds `files` there. -/
def stepRequests (state : FwState) (path : CStr) (files : List WalkEntry) : StepRequests where
  init := [sizeofFwFile * 16]
  scan := fillRequests sizeofFwFile 16 0 (files.map WalkEntry.name)
  first := fillRequests sizeofFioPath state.pathVec.capacity (state.pathVec.count - 1) ((subdirs path files).take 1)
  dirs := fillRequests sizeofFioPath state.pathVec.capacity (state.pathVec.count - 1) (subdirs path files)
  record := filesRequests files ++ pushRequests sizeofFwDir state.dirVec.capacity state.dirVec.count

/-- The requests from the scan on. -/
def StepRequests.visit (requests : StepRequests) : List Nat := requests.scan ++ (requests.dirs ++ requests.record)

/-- The directory at `path` can be opened next, and what it lists can be scanned. -/
structure Sys.Lists (s : Sys) (path : CStr) (stream : DirStream) : Prop where
  opens : s.opens s.openCalls path = .ok stream
  scannable : Scannable stream

/-- The directory at `path` can be opened and scanned, and every request of a step that visits it is granted. -/
def Sys.GrantsStep (s : Sys) (state : FwState) (path : CStr) : Prop :=
  ∃ stream, s.Lists path stream ∧
    let requests := stepRequests state path (keptEntries stream.entries)
    s.Grants (requests.init ++ requests.visit)

/-- The directory at `path` can be opened and scanned, has a directory that the walk is to visit, and the requests
    up to the push of the first such directory are granted. -/
def Sys.GrantsPush (s : Sys) (state : FwState) (path : CStr) : Prop :=
  ∃ stream, s.Lists path stream ∧ subdirs path (keptEntries stream.entries) ≠ [] ∧
    let requests := stepRequests state path (keptEntries stream.entries)
    s.Grants (requests.init ++ (requests.scan ++ requests.first))

end Jcl
