/-
Module: Jcl.Proofs.WalkRuns
Layer: Proofs
Purpose: The whole walk. Where allocations are granted and `opendir` shows a directory tree, a step of the code is a
  round of a stack walk over the forest of composed paths. The walk so ends after as many steps as directories
  are reached, and has recorded each of those that may be opened once.
Imports: Jcl.Lib.StackWalk, Jcl.Proofs.FileWalk
Trusted boundary: human-reviewed spec (Mounted, walkStep, walkSteps, WalkedOnce)
Main exports: Mounted, walkStep, walkSteps, WalkedOnce, walkStep_spec, walkSteps_spec, walk_visits_once
-/
import Jcl.Lib.StackWalk
import Jcl.Proofs.FileWalk

namespace Jcl

open StackWalk

/-- Allocations are granted, no error is pending, and `opendir` on a path that the walk from `start` reaches opens
    the directory of the tree at that path, or fails with `EACCES`. -/
structure Mounted (tree : DirectoryTree) (start : CStr) (s : Sys) : Prop extends Serving s where
  opens : ∀ path, tree.Reached start path → ∀ id, s.opens id path =
    if tree.denied path then .error .eacces else .ok { entries := tree.entries path, error := none }

/-- A step of the walk, after which a skip is taken back from `*err`. -/
def walkStep (state : FwState) : SysM FwState := do
  let (state, _) ← jfsFwStateStep state
  if (← getErr) = .fwSkip then setErr .ok
  return state

/-- That many steps. -/
def walkSteps : Nat → FwState → SysM FwState
  | 0, state => return state
  | steps + 1, state => do walkSteps steps (← walkStep state)

/-- The walk has ended: nothing is pending, every directory that is reached and may be opened is recorded once,
    with the files that are kept of its listing, nothing else is recorded, and if there are records
    `jfs_fw_record_init` yields their array. -/
structure WalkedOnce (tree : DirectoryTree) (start : CStr) (state : FwState) (s : Sys) : Prop where
  err : s.err = .ok
  pending : state.pathVec.count = 0
  once : (state.dirVec.array.cells.map fun dir => dir.shown.path).Nodup
  exact : ∀ dir, dir ∈ state.dirVec.array.cells.map FwDir.shown ↔
    tree.Reached start dir.path ∧ tree.denied dir.path = false ∧ dir.files = keptEntries (tree.entries dir.path)
  record : state.dirVec.count ≠ 0 → ∀ record, Returns (jfsFwRecordInit record state) s fun r s' =>
    r.1.dirArray.cells = state.dirVec.array.cells ∧ r.2 = none ∧ s'.err = .ok

/-- What is recorded of the directory at `path`. -/
def DirectoryTree.found (tree : DirectoryTree) (path : CStr) : List WalkDir :=
  if tree.denied path then [] else [{ path := path, files := keptEntries (tree.entries path) }]

variable {tree : DirectoryTree} {start path : CStr} {state : FwState} {stack trace : List CStr}
  {recorded : List WalkDir} {s : Sys}

theorem DirectoryTree.Reached.ne_nil (h : tree.Reached start path) (hne : start ≠ []) : path ≠ [] := by
  cases h with
  | start => exact hne
  | child => simp [composePath]

theorem Mounted.of_opens {s' : Sys} (h : Mounted tree start s) (hserving : Serving s')
    (hopens : s'.opens = s.opens) : Mounted tree start s' :=
  ⟨hserving, by rw [hopens]; exact h.opens⟩

/-- A step of the code is a round of the stack walk. -/
theorem walkStep_spec (hstate : state.At (path :: stack).reverse recorded) (h : Mounted tree start s)
    (hpath : tree.Reached start path) (hne : start ≠ []) :
    Returns (walkStep state) s fun state' s' =>
      state'.At (tree.kids path ++ stack).reverse (recorded ++ tree.found path) ∧ Mounted tree start s' := by
  rw [List.reverse_cons] at hstate
  unfold walkStep
  cases hdenied : tree.denied path with
  | true =>
      have hopens : ∀ id, s.opens id path = .error .eacces := by
        intro id
        rw [h.opens path hpath id, hdenied, if_pos rfl]
      refine returns_bind.2 ((step_skips hstate h.toServing hopens).mono ?_)
      rintro r s₁ ⟨hstate₁, herr, hallocs, hopens₁⟩
      simp only [returns_bind, returns_getErr, herr, if_true, returns_setErr, returns_pure,
        DirectoryTree.kids, DirectoryTree.found, hdenied, List.nil_append, List.append_nil]
      refine ⟨hstate₁, h.of_opens ⟨?_, rfl⟩ hopens₁⟩
      intro id size
      rw [hallocs]
      exact h.allocs id size
  | false =>
      have hopens : ∀ id, s.opens id path = .ok { entries := tree.entries path, error := none } := by
        intro id
        rw [h.opens path hpath id, hdenied]
        rfl
      refine returns_bind.2 ((step_records hstate h.toServing (hpath.ne_nil hne) hopens
        (tree.validEntries path)).mono ?_)
      rintro r s₁ ⟨hstate₁, hserving, hopens₁⟩
      simp only [returns_bind, returns_getErr, hserving.err, reduceCtorEq, if_false, returns_pure,
        DirectoryTree.kids, DirectoryTree.found, hdenied, Bool.false_eq_true, List.reverse_append,
        List.reverse_reverse]
      exact ⟨hstate₁, h.of_opens hserving hopens₁⟩

/-- Where nothing is pending, a step changes nothing. -/
theorem walkStep_done (hstate : state.At [] recorded) (h : Serving s) :
    Returns (walkStep state) s fun state' s' => state' = state ∧ s' = s := by
  have hcount : state.pathVec.count = 0 := hstate.paths.count
  simp [walkStep, jfsFwStateStep, hcount, h.err]

/-- After `n` steps the walk has taken the first `n` vertices of its trace, or all of them. -/
theorem walkSteps_spec (hwalk : Walks tree.kids stack trace) (hstate : state.At stack.reverse recorded)
    (h : Mounted tree start s) (hreached : ∀ path ∈ trace, tree.Reached start path) (hne : start ≠ []) (n : Nat) :
    Returns (walkSteps n state) s fun state' s' =>
      ∃ stack', Walks tree.kids stack' (trace.drop n) ∧
        state'.At stack'.reverse (recorded ++ (trace.take n).flatMap tree.found) ∧ Mounted tree start s' := by
  induction n generalizing state stack trace recorded s with
  | zero =>
      simp only [walkSteps, returns_pure]
      exact ⟨stack, hwalk, by simpa using hstate, h⟩
  | succ n ih =>
      cases hwalk with
      | done =>
          unfold walkSteps
          refine returns_bind.2 ((walkStep_done hstate h.toServing).mono ?_)
          rintro state₁ s₁ ⟨rfl, rfl⟩
          simpa using ih .done hstate h hreached
      | @round path stack trace hrest =>
          have hstep := walkStep_spec hstate h (hreached path (by simp)) hne
          unfold walkSteps
          refine returns_bind.2 (hstep.mono ?_)
          rintro state₁ s₁ ⟨hstate₁, h₁⟩
          refine (ih hrest hstate₁ h₁ fun other hother => hreached other (List.mem_cons_of_mem path hother)).mono ?_
          rintro state₂ s₂ ⟨stack₂, hwalk₂, hstate₂, h₂⟩
          refine ⟨stack₂, hwalk₂, ?_, h₂⟩
          simpa [List.append_assoc] using hstate₂

/-! ### The records -/

theorem mem_flatMap_found {dir : WalkDir} : dir ∈ trace.flatMap tree.found ↔
    dir.path ∈ trace ∧ tree.denied dir.path = false ∧ dir.files = keptEntries (tree.entries dir.path) := by
  simp only [List.mem_flatMap, DirectoryTree.found]
  constructor
  · rintro ⟨path, hpath, hdir⟩
    cases hdenied : tree.denied path with
    | true => simp [hdenied] at hdir
    | false =>
        simp only [hdenied, Bool.false_eq_true, if_false, List.mem_singleton] at hdir
        subst hdir
        exact ⟨hpath, hdenied, rfl⟩
  · rintro ⟨hpath, hdenied, hfiles⟩
    refine ⟨dir.path, hpath, ?_⟩
    simp only [hdenied, Bool.false_eq_true, if_false, List.mem_singleton, ← hfiles]

theorem flatMap_found_paths (tree : DirectoryTree) (trace : List CStr) :
    (trace.flatMap tree.found).map WalkDir.path = trace.filter fun path => !tree.denied path := by
  induction trace with
  | nil => rfl
  | cons path trace ih =>
      cases hdenied : tree.denied path with
      | true => simp [DirectoryTree.found, hdenied, ih]
      | false => simp [DirectoryTree.found, hdenied, ih]

/-- A walk that took the reached directories, each once, has ended as it should. -/
theorem walkedOnce_of_at (hstate : state.At [] (trace.flatMap tree.found)) (h : Mounted tree start s)
    (hnodup : trace.Nodup) (htrace : ∀ path, path ∈ trace ↔ tree.Reached start path) :
    WalkedOnce tree start state s where
  err := h.err
  pending := hstate.paths.count
  once := by
    have hpaths : (state.dirVec.array.cells.map fun dir => dir.shown.path) =
        trace.filter fun path => !tree.denied path := by
      rw [← flatMap_found_paths, ← hstate.dirs.view, List.map_map]
      rfl
    rw [hpaths]
    exact hnodup.filter _
  exact := by
    intro dir
    rw [hstate.dirs.view, mem_flatMap_found, htrace]
  record := by
    intro hcount record
    have hne : trace.flatMap tree.found ≠ [] := by
      intro hnil
      rw [hstate.dirs.count, hnil] at hcount
      exact hcount rfl
    exact jfsFwRecordInit_spec hstate hne h.toServing record

/-- From `jfs_fw_state_create` on, the walk ends after as many steps as there are directories reached, and then
    every one of them that may be opened is recorded once. The start is a path that `jfs_fio_path_init` accepts;
    the empty one names no directory. -/
theorem walk_visits_once (tree : DirectoryTree) (startPath : FioPath) (start : CStr) (s : Sys)
    (hstart : startPath.Holds start) (hne : start ≠ []) (hlen : start.length ≤ pathMax)
    (hmounted : Mounted tree (normalPath start) s) :
    ∃ reached : List CStr, reached.Nodup ∧
      (∀ path, path ∈ reached ↔ tree.Reached (normalPath start) path) ∧
      Returns (jfsFwStateCreate startPath) s fun created s₀ =>
        ∃ state₀, created = some state₀ ∧
          (∀ n < reached.length, Returns (walkSteps n state₀) s₀ fun state s₁ =>
            s₁.err = .ok ∧ 0 < state.pathVec.count) ∧
          Returns (walkSteps reached.length state₀) s₀ (WalkedOnce tree (normalPath start)) := by
  obtain ⟨trace, hwalk⟩ := exists_walks tree.forest.rank_lt [normalPath start]
  have htrace : ∀ path, path ∈ trace ↔ tree.Reached (normalPath start) path := by
    intro path
    rw [hwalk.mem_iff, DirectoryTree.reached_iff_reaches]
    simp
  have hreached : ∀ path ∈ trace, tree.Reached (normalPath start) path := fun path => (htrace path).1
  have hnormal := normalPath_ne_nil hne
  have hfits := Nat.le_trans (length_normalPath_le start) hlen
  have hnodup : trace.Nodup := hwalk.nodup tree.forest apart_singleton
  refine ⟨trace, hnodup, htrace, ?_⟩
  refine (jfsFwStateCreate_spec hstart hfits hmounted.toServing).mono ?_
  rintro created s₀ ⟨⟨state₀, hcreated, hstate₀⟩, hframe⟩
  refine ⟨state₀, hcreated, ?_, ?_⟩
  · intro n hn
    have hmounted₀ := hmounted.of_opens (hmounted.toServing.frame hframe) hframe.opens
    refine (walkSteps_spec hwalk hstate₀ hmounted₀ hreached hnormal n).mono ?_
    rintro state s₁ ⟨stack, hrest, hstate, h₁⟩
    refine ⟨h₁.err, ?_⟩
    rw [hstate.paths.count, List.length_reverse, List.length_pos_iff]
    rintro rfl
    cases hdrop : trace.drop n with
    | nil => exact absurd (List.drop_eq_nil_iff.1 hdrop) (Nat.not_le_of_lt hn)
    | cons path rest =>
        rw [hdrop] at hrest
        cases hrest
  · have hmounted₀ := hmounted.of_opens (hmounted.toServing.frame hframe) hframe.opens
    refine (walkSteps_spec hwalk hstate₀ hmounted₀ hreached hnormal _).mono ?_
    rintro state s₁ ⟨stack, hrest, hstate, h₁⟩
    rw [List.drop_length] at hrest
    cases hrest
    rw [List.take_length] at hstate
    exact walkedOnce_of_at hstate h₁ hnodup htrace

/-- The directory `a` with a file `f`, a socket `s`, an empty directory `b` and a directory `c` that may not be
    opened. -/
def sampleTree : DirectoryTree where
  entries path :=
    if path = [97] then
      [⟨[46], .dir, 1⟩, ⟨[98], .dir, 2⟩, ⟨[102], .reg, 3⟩, ⟨[115], .other 12, 4⟩, ⟨[46, 46], .dir, 5⟩,
        ⟨[99], .dir, 6⟩]
    else []
  denied path := path == [97, 47, 99]
  names_nodup path := by
    split
    · decide
    · exact List.nodup_nil
  names_valid path := by
    split
    · decide
    · exact fun ent hent => absurd hent List.not_mem_nil
  types_known path := by
    split
    · decide
    · exact fun ent hent => absurd hent List.not_mem_nil

/-- A system that shows the sample tree. -/
def sampleSys : Sys where
  allocs _ _ := true
  opens _ path :=
    if sampleTree.denied path then .error .eacces
    else .ok { entries := sampleTree.entries path, error := none }
  allocCalls := 1
  openCalls := 0
  events := []
  errno := none
  err := .ok

/-- The path `a/`, which a caller allocated. -/
def samplePath : FioPath := { len := 2, str := { ptr := .block 0, cells := [97, 47] } }

/-- The walk over the sample tree. -/
theorem walk_visits_once_sample :
    ∃ reached : List CStr, reached.Nodup ∧
      (∀ path, path ∈ reached ↔ sampleTree.Reached (normalPath [97, 47]) path) ∧
      Returns (jfsFwStateCreate samplePath) sampleSys fun created s₀ =>
        ∃ state₀, created = some state₀ ∧
          (∀ n < reached.length, Returns (walkSteps n state₀) s₀ fun state s₁ =>
            s₁.err = .ok ∧ 0 < state.pathVec.count) ∧
          Returns (walkSteps reached.length state₀) s₀ (WalkedOnce sampleTree (normalPath [97, 47])) :=
  walk_visits_once sampleTree samplePath [97, 47] sampleSys ⟨⟨0, rfl⟩, rfl, rfl⟩ (by decide) (by decide)
    ⟨⟨fun _ _ => rfl, rfl⟩, fun _ _ _ => rfl⟩

end Jcl
