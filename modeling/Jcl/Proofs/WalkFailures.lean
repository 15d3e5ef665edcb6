/-
Module: Jcl.Proofs.WalkFailures
Layer: Proofs
Purpose: What a caller can tell from a step of the walk. A step that fails leaves the state as it should unless it had
  already pushed a directory that it found, and the value that it returns tells whether paths are pending unless
  it recorded a directory.
Imports: Jcl.Proofs.WalkStep
Trusted boundary: human-reviewed spec (FailedCleanly)
Main exports: FailedCleanly, failedStep_clean_iff, completion_iff
-/
import Jcl.Proofs.WalkStep

namespace Jcl

variable {s : Sys} {F : Multiset Resource} {state : FwState} {pending : List CStr} {recorded : List WalkDir}
  {path : CStr}

/-! ### What a failed step leaves -/

/-- The records are as they were, and so are the pending paths, but that the last may have been removed. -/
structure FailedCleanly (state state' : FwState) : Prop where
  dirs : state'.dirVec = state.dirVec
  paths : state'.pathVec.array.cells = state.pathVec.array.cells ∨
    state'.pathVec.array.cells = state.pathVec.array.cells.dropLast

/-- A step that is refused something after its first push leaves what it pushed. -/
theorem step_leaves_kids (hlive : state.Live s pending recorded F) (herr : s.err = .ok)
    (hlast : pending.getLast? = some path) (hpush : s.GrantsPush state path) (hstep : ¬ s.GrantsStep state path) :
    ¬ Returns (jfsFwStateStep state) s fun r s' => s'.err ≠ .ok → FailedCleanly state r.1 := by
  obtain ⟨rest, rfl⟩ := List.getLast?_eq_some_iff.1 hlast
  intro hclean
  obtain ⟨r, s', -, hQ, hclean⟩ := hclean.and (step_attempts hlive herr)
  obtain ⟨-, ⟨hgrants, -⟩ | ⟨-, herr', -, -, ⟨-, hnot⟩ | ⟨-, pushed, hcells, hlonger, hpushed⟩⟩⟩ := hclean
  · exact hstep hgrants
  · exact hnot hpush
  · have hne : pushed ≠ [] := hpushed.2 hpush
    obtain ⟨init, lastCells, hsplit, -, hlast⟩ := List.map_eq_append_iff.1 hlive.paths.view
    obtain ⟨last, rfl, hpath⟩ := List.map_eq_singleton_iff.1 hlast
    have hpopped : state.popped.pathVec.array.cells = init := by
      simp [FwState.popped, hsplit]
    rw [hpopped] at hcells
    obtain ⟨-, hsame | hdropped⟩ := hQ herr'
    · rw [hcells, hsplit, List.append_cancel_left_eq] at hsame
      subst hsame
      -- The path that was removed cannot be one that was pushed.
      have hlt := hlonger last List.mem_cons_self
      rw [hpath] at hlt
      exact Nat.lt_irrefl _ hlt
    · rw [hcells, hsplit, List.dropLast_concat] at hdropped
      exact hne (List.append_right_eq_self.1 hdropped)

/-- A step leaves the state as a failed one should if and only if, once it has pushed a directory that it found, the
    rest of what it asks for is granted too. -/
theorem failedStep_clean_iff (hlive : state.Live s pending recorded F) :
    (Returns (jfsFwStateStep state) s fun r s' => s'.err ≠ .ok → FailedCleanly state r.1) ↔
      ∀ path, pending.getLast? = some path → s.err = .ok → s.GrantsPush state path → s.GrantsStep state path := by
  constructor
  · intro hclean path hlast herr hpush
    by_contra hstep
    exact step_leaves_kids hlive herr hlast hpush hstep hclean
  · intro hgrants
    cases hlast : pending.getLast? with
    | none =>
        rw [List.getLast?_eq_none_iff] at hlast
        subst hlast
        refine (step_done hlive).mono ?_
        rintro r s' ⟨rfl, rfl, -⟩ -
        exact ⟨rfl, .inl rfl⟩
    | some path =>
        obtain ⟨rest, rfl⟩ := List.getLast?_eq_some_iff.1 hlast
        by_cases herr : s.err = .ok
        · refine Returns.mono (step_attempts hlive herr) ?_
          rintro r s' ⟨-, ⟨-, hok, -⟩ | ⟨hstep, -, -, -, ⟨hsame, -⟩ | ⟨hdirs, pushed, hcells, -, hpushed⟩⟩⟩ herr'
          · exact absurd hok herr'
          · rw [hsame]
            exact ⟨rfl, .inl rfl⟩
          · have hnone : pushed = [] := by
              by_contra hne
              exact hstep (hgrants path hlast herr (hpushed.1 hne))
            subst hnone
            rw [List.append_nil] at hcells
            exact ⟨hdirs, .inr hcells⟩
        · refine (step_blocked hlive (by simp) herr).mono ?_
          rintro r s' ⟨rfl, -⟩ -
          exact ⟨rfl, .inl rfl⟩

/-! ### The value that a step returns -/

/-- A step that records a directory returns nonzero exactly where a path is pending. -/
theorem step_misreports (hlive : state.Live s pending recorded F) (herr : s.err = .ok)
    (hlast : pending.getLast? = some path) (hstep : s.GrantsStep state path) :
    ¬ Returns (jfsFwStateStep state) s fun r _ => (r.2 = true ↔ r.1.pathVec.count = 0) := by
  obtain ⟨rest, rfl⟩ := List.getLast?_eq_some_iff.1 hlast
  intro hmeans
  obtain ⟨r, s', -, hiff, -, ⟨-, -, -, hr⟩ | ⟨hnot, -⟩⟩ := hmeans.and (step_attempts hlive herr)
  · rw [hr, decide_eq_true_eq] at hiff
    omega
  · exact hnot hstep

/-- A step returns nonzero exactly where no path is pending after it, if and only if it records no directory. -/
theorem completion_iff (hlive : state.Live s pending recorded F) :
    (Returns (jfsFwStateStep state) s fun r _ => (r.2 = true ↔ r.1.pathVec.count = 0)) ↔
      ∀ path, pending.getLast? = some path → s.err = .ok → ¬ s.GrantsStep state path := by
  constructor
  · intro hmeans path hlast herr hstep
    exact step_misreports hlive herr hlast hstep hmeans
  · intro hnone
    cases hlast : pending.getLast? with
    | none =>
        rw [List.getLast?_eq_none_iff] at hlast
        subst hlast
        refine (step_done hlive).mono ?_
        rintro r s' ⟨rfl, -, hcount⟩
        exact ⟨fun _ => hcount, fun _ => rfl⟩
    | some path =>
        obtain ⟨rest, rfl⟩ := List.getLast?_eq_some_iff.1 hlast
        by_cases herr : s.err = .ok
        · refine Returns.mono (step_attempts hlive herr) ?_
          rintro r s' ⟨-, ⟨hstep, -⟩ | ⟨-, -, -, hr, -⟩⟩
          · exact absurd hstep (hnone path hlast herr)
          · rw [hr, decide_eq_true_eq]
        · refine (step_blocked hlive (by simp) herr).mono ?_
          rintro r s' ⟨rfl, -⟩
          exact decide_eq_true_iff

/-! ### A walk over two directories -/

/-- The directory `a` has an empty directory `b` in it. The allocation with the number `refused` is refused; the walk
    over `a` was created with the first four. -/
def kidSys (refused : Nat) : Sys where
  allocs n _ := n != refused
  opens _ path :=
    if path = [97] then .ok { entries := [⟨[98], .dir, 1⟩], error := none }
    else if path = [97, 47, 98] then .ok { entries := [], error := none }
    else .error .enoent
  allocCalls := 4
  openCalls := 0
  events := [.allocated 3, .allocated 2, .allocated 1, .allocated 0]
  errno := none
  err := .ok

/-- The walk over `a` after its creation. -/
def kidState : FwState where
  self := .block 0
  pathVec :=
    { capacity := 16
      array := { ptr := .block 1, cells := [{ len := 1, str := { ptr := .block 3, cells := [97] } }] } }
  dirVec := { capacity := 16, array := { ptr := .block 2, cells := [] } }

theorem kidState_live (refused : Nat) : kidState.Live (kidSys refused) [[97]] [] 0 where
  self := ⟨0, rfl⟩
  paths := by
    refine ⟨⟨1, rfl⟩, ?_, rfl⟩
    intro path hpath
    cases List.mem_singleton.1 hpath
    exact ⟨⟨3, rfl⟩, rfl, rfl⟩
  dirs := ⟨⟨2, rfl⟩, fun dir hdir => absurd hdir List.not_mem_nil, rfl⟩
  owns := by
    have howned : kidState.owned + 0 = .block 3 ::ₘ .block 2 ::ₘ .block 1 ::ₘ .block 0 ::ₘ 0 := by decide
    rw [howned]
    refine ⟨?_, ?_, ?_⟩
    · exact .acquire (.acquire (.acquire (.acquire .nil (by simp)) (by decide)) (by decide)) (by decide)
    · simp [kidSys]
    · simp [kidSys]
  posix := by
    refine ⟨fun _ => ⟨.enoent, rfl⟩, ?_⟩
    intro n path stream hopen ent hent _
    simp only [kidSys] at hopen
    split at hopen
    · cases hopen
      cases List.mem_singleton.1 hent
      decide
    · split at hopen
      · cases hopen
        exact absurd hent List.not_mem_nil
      · cases hopen

theorem kidSys_lists (refused : Nat) :
    (kidSys refused).Lists [97] { entries := [⟨[98], .dir, 1⟩], error := none } :=
  ⟨rfl, rfl, by decide, by decide⟩

theorem kidSys_grantsPush : (kidSys 7).GrantsPush kidState [97] :=
  ⟨_, kidSys_lists 7, by decide, by decide⟩

/-- The path of `b` stays pending although the record of `a` was refused. -/
theorem kid_left_pending : kidState.Live (kidSys 7) [[97]] [] 0 ∧
    ¬ Returns (jfsFwStateStep kidState) (kidSys 7) fun r s' => s'.err ≠ .ok → FailedCleanly kidState r.1 := by
  refine ⟨kidState_live 7, step_leaves_kids (kidState_live 7) rfl rfl kidSys_grantsPush ?_⟩
  rintro ⟨stream, hlists, hgrants⟩
  cases hlists.unique rfl
  exact absurd hgrants (by decide)

theorem failedStep_clean_kid :
    (Returns (jfsFwStateStep kidState) (kidSys 7) fun r s' => s'.err ≠ .ok → FailedCleanly kidState r.1) ↔
      ∀ path, [[97]].getLast? = some path → (kidSys 7).err = .ok → (kidSys 7).GrantsPush kidState path →
        (kidSys 7).GrantsStep kidState path :=
  failedStep_clean_iff (kidState_live 7)

/-- A step that records `a` and leaves `b` pending returns nonzero. -/
theorem kid_reported_done : kidState.Live (kidSys 0) [[97]] [] 0 ∧
    ¬ Returns (jfsFwStateStep kidState) (kidSys 0) fun r _ => (r.2 = true ↔ r.1.pathVec.count = 0) :=
  ⟨kidState_live 0, step_misreports (kidState_live 0) rfl rfl ⟨_, kidSys_lists 0, by decide⟩⟩

theorem completion_kid :
    (Returns (jfsFwStateStep kidState) (kidSys 0) fun r _ => (r.2 = true ↔ r.1.pathVec.count = 0)) ↔
      ∀ path, [[97]].getLast? = some path → (kidSys 0).err = .ok → ¬ (kidSys 0).GrantsStep kidState path :=
  completion_iff (kidState_live 0)

end Jcl
