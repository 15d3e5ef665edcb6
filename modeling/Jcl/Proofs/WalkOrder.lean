/-
Module: Jcl.Proofs.WalkOrder
Layer: Proofs
Purpose: The order of a walk. Where allocations are granted and `opendir` shows a directory tree, the directories are
  recorded in preorder, of two directories in one the one that is listed later first; and a record is made of them
  when the walk is through, and not before.
Imports: Jcl.Proofs.WalkRuns
Trusted boundary: human-reviewed spec (DirectoryTree.preorder, WalkedTo)
Main exports: DirectoryTree.preorder, WalkedTo, walk_preorder
-/
import Jcl.Proofs.WalkRuns

namespace Jcl

open StackWalk

/-- The directory at `path` and those below it: the directory first, and of those in it the one that is listed last
    first. -/
def DirectoryTree.preorder (tree : DirectoryTree) (path : CStr) : List CStr :=
  path :: (tree.kids path).attach.flatMap fun child => tree.preorder child.1
termination_by pathMax + 1 - path.length
decreasing_by exact tree.forest.rank_lt path child.1 child.2

theorem DirectoryTree.preorder_eq (tree : DirectoryTree) (path : CStr) :
    tree.preorder path = path :: (tree.kids path).flatMap tree.preorder := by
  rw [preorder, List.flatMap_subtype (g := tree.preorder) (fun _ _ => rfl), List.unattach_attach]

/-- What there is of a walk from `start` after `n` steps. -/
structure WalkedTo (tree : DirectoryTree) (start : CStr) (n : Nat) (state : FwState) (s : Sys) : Prop where
  recorded : state.dirVec.array.cells.map FwDir.shown = ((tree.preorder start).take n).flatMap tree.found
  unfinished : n < (tree.preorder start).length → ∀ record, Returns (jfsFwRecordInit record state) s fun r s' =>
    r = (record, some state) ∧ s'.err = .fwState
  finished : (tree.preorder start).length ≤ n → ∀ record, Returns (jfsFwRecordInit record state) s fun r s' =>
    if tree.denied start then r = (record, some state) ∧ s'.err = .empty
    else r.1.dirArray.cells.map FwDir.shown = (tree.preorder start).flatMap tree.found ∧ r.2 = none ∧ s'.err = .ok

variable {tree : DirectoryTree} {start path : CStr} {state : FwState} {stack trace : List CStr}
  {recorded : List WalkDir} {s : Sys}

/-- A walk that takes nothing more has nothing pending. -/
theorem eq_nil_of_walks (hwalk : Walks tree.kids stack []) : stack = [] := by
  cases hwalk
  rfl

/-- Nothing is recorded of a tree only if its root may not be opened. -/
theorem flatMap_found_preorder (tree : DirectoryTree) (path : CStr) :
    (tree.preorder path).flatMap tree.found = [] ↔ tree.denied path = true := by
  rw [tree.preorder_eq, List.flatMap_cons, List.append_eq_nil_iff]
  cases hdenied : tree.denied path with
  | true => simp [DirectoryTree.found, DirectoryTree.kids, hdenied]
  | false => simp [DirectoryTree.found, hdenied]

/-- No record is made while a path is pending. -/
theorem jfsFwRecordInit_pending {pending : List CStr} (hstate : state.At pending recorded) (hne : pending ≠ [])
    (record : FwRecord) : Returns (jfsFwRecordInit record state) s fun r s' =>
      r = (record, some state) ∧ s'.err = .fwState := by
  have hcount : state.pathVec.count > 0 := by
    rw [hstate.paths.count]
    exact List.length_pos_iff.2 hne
  simp [jfsFwRecordInit, hcount]

/-- No record is made of nothing. -/
theorem jfsFwRecordInit_empty (hstate : state.At [] []) (record : FwRecord) :
    Returns (jfsFwRecordInit record state) s fun r s' => r = (record, some state) ∧ s'.err = .empty := by
  have hpending : state.pathVec.count = 0 := hstate.paths.count
  have hempty : state.dirVec.count = 0 := hstate.dirs.count
  simp [jfsFwRecordInit, hpending, fwDirVectorToArray, fwVectorToArray, hempty]

theorem walkedTo_of_at {n : Nat} (hstate : state.At stack.reverse (((tree.preorder start).take n).flatMap tree.found))
    (hwalk : Walks tree.kids stack ((tree.preorder start).drop n)) (h : Serving s) :
    WalkedTo tree start n state s where
  recorded := hstate.dirs.view
  unfinished := by
    intro hn record
    refine jfsFwRecordInit_pending hstate ?_ record
    intro hnil
    rw [List.reverse_eq_nil_iff.1 hnil] at hwalk
    have hdrop := hwalk.eq_flatMap tree.preorder_eq
    exact absurd (List.drop_eq_nil_iff.1 hdrop) (Nat.not_le_of_lt hn)
  finished := by
    intro hn record
    rw [List.drop_eq_nil_of_le hn] at hwalk
    rw [List.take_of_length_le hn, eq_nil_of_walks hwalk] at hstate
    by_cases hnil : (tree.preorder start).flatMap tree.found = []
    · simp only [(flatMap_found_preorder tree start).1 hnil, if_true]
      rw [hnil] at hstate
      exact jfsFwRecordInit_empty hstate record
    · have hopen : ¬ tree.denied start = true := fun hdenied => hnil ((flatMap_found_preorder tree start).2 hdenied)
      simp only [hopen]
      refine (jfsFwRecordInit_spec hstate hnil h record).mono ?_
      rintro r s' ⟨hcells, hnone, herr⟩
      exact ⟨hcells ▸ hstate.dirs.view, hnone, herr⟩

/-- After any number of steps, the directories that may be opened among the first so many of the preorder are
    recorded, in this order, and once all of them were taken it stays so. -/
theorem walk_preorder (tree : DirectoryTree) (startPath : FioPath) (start : CStr) (s : Sys)
    (hstart : startPath.Holds start) (hne : start ≠ []) (hlen : start.length ≤ pathMax)
    (hmounted : Mounted tree (normalPath start) s) :
    Returns (jfsFwStateCreate startPath) s fun created s₀ =>
      ∃ state₀, created = some state₀ ∧ ∀ n,
        Returns (walkSteps n state₀) s₀ (WalkedTo tree (normalPath start) n) := by
  obtain ⟨trace, hwalk⟩ := exists_walks tree.forest.rank_lt [normalPath start]
  have htrace : trace = tree.preorder (normalPath start) := by
    rw [hwalk.eq_flatMap tree.preorder_eq, List.flatMap_singleton]
  have hreached : ∀ path ∈ trace, tree.Reached (normalPath start) path := by
    intro path hpath
    obtain ⟨v, hv, hreach⟩ := hwalk.mem_iff.1 hpath
    rw [List.mem_singleton.1 hv] at hreach
    exact DirectoryTree.reached_iff_reaches.2 hreach
  have hfits := Nat.le_trans (length_normalPath_le start) hlen
  refine (jfsFwStateCreate_spec hstart hfits hmounted.toServing).mono ?_
  rintro created s₀ ⟨⟨state₀, hcreated, hstate₀⟩, hframe⟩
  refine ⟨state₀, hcreated, fun n => ?_⟩
  have hmounted₀ := hmounted.of_opens (hmounted.toServing.frame hframe) hframe.opens
  refine (walkSteps_spec hwalk hstate₀ hmounted₀ hreached (normalPath_ne_nil hne) n).mono ?_
  rintro state s₁ ⟨stack, hrest, hstate, h₁⟩
  rw [htrace] at hrest hstate
  exact walkedTo_of_at hstate hrest h₁.toServing

/-- The walk over the sample tree. -/
theorem walk_preorder_sample : Returns (jfsFwStateCreate samplePath) sampleSys fun created s₀ =>
    ∃ state₀, created = some state₀ ∧ ∀ n,
      Returns (walkSteps n state₀) s₀ (WalkedTo sampleTree (normalPath [97, 47]) n) :=
  walk_preorder sampleTree samplePath [97, 47] sampleSys ⟨⟨0, rfl⟩, rfl, rfl⟩ (by decide) (by decide)
    ⟨⟨fun _ _ => rfl, rfl⟩, fun _ _ _ => rfl⟩

end Jcl
