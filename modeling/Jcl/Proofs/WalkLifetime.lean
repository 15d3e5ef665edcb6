/-
Module: Jcl.Proofs.WalkLifetime
Layer: Proofs
Purpose: The whole life of walks and their records, under any answers of the system and whatever is in `*err`. A client
  creates, steps, records and destroys in any order that the header allows; the log of the system then shows that
  everything was given back once, for as long as no creation is refused the memory of its vectors and no call gets
  memory while an error is pending.
Imports: Jcl.Proofs.WalkStep
Trusted boundary: human-reviewed spec (Client, WalkCall, WalkCall.Safe, WalkRun, Accounted)
Main exports: createRequests, Client, WalkCall, WalkCall.Safe, WalkRun, Accounted, released_once_iff
-/
import Jcl.Proofs.WalkStep

namespace Jcl

open Ledger

variable {s : Sys} {F : Multiset Resource}

/-! ### Creation -/

/-- The requests for the state and its two vectors. -/
def createRequests : List Nat := [sizeofFwState, sizeofFioPath * 16, sizeofFwDir * 16]

/-- The cleanup of a creation releases the state and the path, if all of their fields were written. -/
theorem createCleanup_spec {state : FwState} {newPath : FioPath} (hdirs : state.dirVec.array.Written FwDir.Written)
    (hpaths : state.pathVec.array.Written FioPath.Written) (hself : state.self ≠ .uninit) (hpath : newPath.Written)
    (hown : s.Owns (state.dirVec.owned FwDir.owned + (state.pathVec.owned FioPath.owned +
      (state.self.owned + (newPath.owned + F))))) :
    Returns (createCleanup (some state) newPath) s fun created s' =>
      created = none ∧ s'.opens = s.opens ∧ s'.Owns F := by
  refine Returns.bind_of (releases_vectorFree hdirs (fun _ hdir => releases_dirFree hdir) s _ hown) ?_
  rintro _ s₁ ⟨hown₁, hquiet₁⟩
  refine Returns.bind_of (releases_vectorFree hpaths (fun _ hpath => releases_pathFree hpath) s₁ _ hown₁) ?_
  rintro _ s₂ ⟨hown₂, hquiet₂⟩
  refine Returns.bind_of (releases_free hself s₂ _ hown₂) ?_
  rintro _ s₃ ⟨hown₃, hquiet₃⟩
  refine Returns.bind_of (releases_pathFree hpath s₃ _ hown₃) ?_
  rintro _ s₄ ⟨hown₄, hquiet₄⟩
  have hquiet := hquiet₁.trans (hquiet₂.trans (hquiet₃.trans hquiet₄))
  exact returns_pure.2 ⟨rfl, hquiet.opens, hown₄⟩

/-- Where a vector was not written, it uses what the field happens to be. -/
theorem createCleanup_uninit (self : Ptr) (pathVec : FwVector FioPath) (newPath : FioPath) :
    Fails (createCleanup (some { self := self, pathVec := pathVec, dirVec := .uninit }) newPath) s .uninitialized :=
  rfl

theorem fwPathVectorInit_asks (herr : s.err = .ok) (hown : s.Owns F) :
    Asks (fwPathVectorInit .uninit) s [sizeofFioPath * 16] (fun vec s' => PathsHold vec [] ∧
      s'.Owns (vec.owned FioPath.owned + F)) (fun vec s' => vec = .uninit ∧ s'.Owns F) :=
  (fwVectorInit_asks herr hown _ _ _).mono (fun _ _ _ h => ⟨h.1.1, h.2⟩) fun _ _ h => h

theorem fwDirVectorInit_asks (herr : s.err = .ok) (hown : s.Owns F) :
    Asks (fwDirVectorInit .uninit) s [sizeofFwDir * 16]
      (fun vec s' => FwVector.Holds FwDir.Written FwDir.shown vec [] ∧ s'.Owns (vec.owned FwDir.owned + F))
      (fun vec s' => vec = .uninit ∧ s'.Owns F) :=
  (fwVectorInit_asks herr hown _ _ _).mono (fun _ _ _ h => ⟨h.1.1, h.2⟩) fun _ _ h => h

/-- A creation that does not get the memory of the state leaves nothing allocated. -/
theorem jfsFwStateCreate_refused (startPath : FioPath) (hown : s.Owns F) (hself : ¬ s.Grants [sizeofFwState]) :
    Returns (jfsFwStateCreate startPath) s fun created s' => s'.opens = s.opens ∧ created = none ∧ s'.Owns F := by
  have hfailed : s.refused.err ≠ .ok := by simp
  unfold jfsFwStateCreate
  rw [returns_bind, returns_jclMalloc, if_neg (mt Sys.grants_singleton.2 hself)]
  exact (returns_check_err hfailed).2 (returns_pure.2 ⟨rfl, rfl, hown.refused⟩)

/-- A creation yields a state with the start pending, or leaves nothing allocated. -/
theorem jfsFwStateCreate_returns {startPath : FioPath} {text : CStr} (hstart : startPath.Holds text)
    (hown : s.Owns F) (hposix : Posix s)
    (hsafe : s.Grants [sizeofFwState] → s.err = .ok ∧ s.Grants createRequests) :
    Returns (jfsFwStateCreate startPath) s fun created s' => s'.opens = s.opens ∧
      ((created = none ∧ s'.Owns F) ∨ ∃ state, created = some state ∧ state.Live s' [normalPath text] [] F) := by
  by_cases hself : s.Grants [sizeofFwState]
  swap
  · exact (jfsFwStateCreate_refused startPath hown hself).mono fun _ _ h => ⟨h.1, .inl h.2⟩
  obtain ⟨herr, hrequests⟩ := hsafe hself
  unfold jfsFwStateCreate
  refine Attempts.check (jclMalloc_asks herr hown sizeofFwState) ?_ ?_
  · rintro self s₁ hopens₁ - herr₁ ⟨hserved₁, hblock, hown₁⟩
    have hrest : s₁.Grants ([sizeofFioPath * 16] ++ [sizeofFwDir * 16]) := (hserved₁.grants.1 hrequests).2
    refine Attempts.check (fwPathVectorInit_asks herr₁ hown₁) ?_ ?_
    · rintro pathVec s₂ hopens₂ hpaths herr₂ ⟨hserved₂, hpathVec, hown₂⟩
      refine Attempts.check (fwDirVectorInit_asks herr₂ hown₂) ?_ ?_
      · rintro dirVec s₃ hopens₃ - herr₃ ⟨-, hdirVec, hown₃⟩
        refine returns_bind.2 ((CArray.read_spec hstart.ptr).2 ?_)
        rw [hstart.cells]
        have hopens := hopens₃.trans (hopens₂.trans hopens₁)
        -- From here on every field is written, and the cleanup works.
        have hexit : ∀ (newPath : FioPath) (s' : Sys), s'.opens = s.opens → newPath.Written →
            s'.Owns (dirVec.owned FwDir.owned + (pathVec.owned FioPath.owned + (self.owned + (newPath.owned + F)))) →
            Returns (createCleanup (some { self := self, pathVec := pathVec, dirVec := dirVec }) newPath) s'
              fun created s'' => s''.opens = s.opens ∧ ((created = none ∧ s''.Owns F) ∨
                ∃ state, created = some state ∧ state.Live s'' [normalPath text] [] F) := by
          intro newPath s' hopens' hwritten hown'
          refine (createCleanup_spec (hdirVec.written_self) hpathVec.written hblock.ne_uninit
            hwritten hown').mono ?_
          rintro created s'' ⟨rfl, hopens'', hown''⟩
          exact ⟨hopens''.trans hopens', .inl ⟨rfl, hown''⟩⟩
        refine Attempts.check (fioPathInit_attempts herr₃ hown₃ .zero text) ?_ ?_
        · rintro newPath s₄ hopens₄ - herr₄ ⟨hnew, hown₄⟩
          have hown₄' : s₄.Owns (pathVec.owned FioPath.owned + (newPath.owned +
            (dirVec.owned FwDir.owned + (self.owned + F)))) := hown₄.of_eq (by abel)
          have htransfer : jfsFioPathTransfer newPath = (newPath, .zero) := rfl
          have hpush := fwVectorPush_asks herr₄ sizeofFioPath htransfer hpathVec hnew.own hown₄'
          refine Attempts.check hpush ?_ ?_
          · rintro r s₅ hopens₅ - - ⟨-, ⟨hpathVec', -⟩, hown₅⟩
            have hopens' := hopens₅.trans (hopens₄.trans hopens)
            have htext : newPath.text = normalPath text := hnew.cells
            rw [htext] at hpathVec'
            refine returns_pure.2 ⟨hopens', .inr ⟨_, rfl, ⟨hblock, hpathVec', hdirVec⟩, ?_, hposix.of_opens hopens'⟩⟩
            exact hown₅.of_eq (by rw [FwState.owned]; abel)
          · rintro r s₅ hopens₅ - - ⟨-, rfl, hown₅⟩
            exact hexit newPath s₅ (hopens₅.trans (hopens₄.trans hopens)) hnew.ptr.ne_uninit (hown₅.of_eq (by abel))
        · rintro newPath s₄ hopens₄ - - ⟨rfl, hown₄⟩
          exact hexit .zero s₄ (hopens₄.trans hopens) FioPath.zero_written
            (hown₄.of_eq (by rw [FioPath.zero_owned]; abel))
      · rintro dirVec s₃ - hrefused
        exact absurd (hserved₂.grants.1 hrest).2 hrefused
    · rintro pathVec s₂ - hrefused
      exact absurd hrest.left hrefused
  · rintro self s₁ - hrefused
    exact absurd hself hrefused

/-- A creation that got the state returns only if no error is pending and it gets the vectors too. -/
theorem createRequests_of_returns {startPath : FioPath} {Q : Option FwState → Sys → Prop}
    (hown : s.Owns F) (hself : s.Grants [sizeofFwState]) (h : Returns (jfsFwStateCreate startPath) s Q) :
    s.err = .ok ∧ s.Grants createRequests := by
  unfold jfsFwStateCreate at h
  have herr : s.err = .ok := by
    by_contra hne
    rw [returns_bind, returns_jclMalloc, if_pos (Sys.grants_singleton.1 hself)] at h
    have hexit := (returns_check_err (s := s.granted) hne).1 h
    exact absurd hexit (createCleanup_uninit (.block s.allocCalls) .uninit .zero).not_returns
  refine ⟨herr, ?_⟩
  obtain ⟨self, s₁, ⟨-, herr₁, ⟨hserved₁, hblock, hown₁⟩, h⟩ | ⟨hrefused, -⟩⟩ :=
    (jclMalloc_asks herr hown sizeofFwState).of_check h
  · obtain ⟨pathVec, s₂, ⟨hpaths, herr₂, ⟨hserved₂, hown₂⟩, h⟩ | ⟨-, -, -, h⟩⟩ :=
      (fwPathVectorInit_asks herr₁ hown₁).of_check h
    · obtain ⟨dirVec, s₃, ⟨hdirs, -⟩ | ⟨-, -, ⟨-, rfl, -⟩, h⟩⟩ := (fwDirVectorInit_asks herr₂ hown₂.2).of_check h
      · exact hserved₁.grants.2 ⟨hself, hserved₂.grants.2 ⟨hpaths, hdirs⟩⟩
      · exact absurd h (createCleanup_uninit self pathVec .zero).not_returns
    · exact absurd h (createCleanup_uninit self pathVec .zero).not_returns
  · exact absurd hself hrefused

/-! ### Records and the end of a walk -/

theorem releases_destroy {state : FwState} (hpaths : state.pathVec.array.Written FioPath.Written)
    (hdirs : state.dirVec.array.Written FwDir.Written) (hself : state.self ≠ .uninit) :
    Releases (jfsFwStateDestroy (some state)) state.owned :=
  (releases_vectorFree hpaths fun _ hpath => releases_pathFree hpath).bind fun _ =>
    (releases_vectorFree hdirs fun _ hdir => releases_dirFree hdir).bind fun _ => releases_free hself

/-- The records are handed over and the walk is destroyed, or everything stays as it is. -/
theorem jfsFwRecordInit_returns {state : FwState} {pending : List CStr} {recorded : List WalkDir} {record : FwRecord}
    (hlive : state.Live s pending recorded F) (hsafe : state.pathVec.count = 0 → state.dirVec.count ≠ 0 →
      s.Grants [sizeofFwDir * state.dirVec.count] → s.err = .ok) :
    Returns (jfsFwRecordInit record state) s fun r s' => s'.opens = s.opens ∧
      ((r = (record, some state) ∧ s'.Owns (state.owned + F)) ∨
        (r.2 = none ∧ r.1.dirArray.Written FwDir.Written ∧ s'.Owns (r.1.owned + F) ∧
          state.pathVec.count = 0 ∧ r.1.dirArray.cells = state.dirVec.array.cells)) := by
  unfold jfsFwRecordInit
  by_cases hcount : state.pathVec.count > 0
  · rw [if_pos hcount]
    simp only [returns_bind, returns_setErr, returns_pure]
    exact ⟨trivial, .inl ⟨trivial, hlive.owns.errors s.errno .fwState⟩⟩
  · rw [if_neg hcount]
    by_cases hnil : recorded = []
    · have hempty : state.dirVec.count = 0 := by
        rw [hlive.dirs.count, hnil]
        rfl
      have hfailed : Sys.err { s with err := .empty } ≠ .ok := by simp
      have hown : Sys.Owns { s with err := .empty } (state.owned + F) := hlive.owns.errors s.errno .empty
      have hrefuses : Returns (fwDirVectorToArray state.dirVec) s fun r s' =>
          r = (.null, state.dirVec) ∧ s' = { s with err := .empty } := by
        simp [fwDirVectorToArray, fwVectorToArray, hempty]
      refine Returns.bind_of hrefuses ?_
      rintro _ _ ⟨rfl, rfl⟩
      exact (returns_check_err hfailed).2 (returns_pure.2 ⟨rfl, .inl ⟨rfl, hown⟩⟩)
    · have hown : s.Owns (state.dirVec.owned FwDir.owned + (state.pathVec.owned FioPath.owned +
        (state.self.owned + F))) := hlive.owns.of_eq (by rw [FwState.owned]; abel)
      have hsome : state.dirVec.count ≠ 0 := by
        rw [hlive.dirs.count]
        exact fun hzero => hnil (List.length_eq_zero_iff.1 hzero)
      by_cases herr : s.err = .ok
      swap
      · have hrefused := mt (hsafe (Nat.eq_zero_of_not_pos hcount) hsome) herr
        rw [hlive.dirs.count] at hrefused
        refine Returns.bind_of (fwVectorToArray_blocked herr sizeofFwDir hlive.dirs hnil hown) ?_
        rintro _ s₁ ⟨rfl, herr₁, hopens₁, -, hown₁⟩
        refine (returns_check_err herr₁).2 (returns_pure.2 ⟨hopens₁, .inl ⟨rfl, ?_⟩⟩)
        exact (hown₁ hrefused).of_eq (by rw [FwState.owned]; abel)
      refine Attempts.check (fwVectorToArray_asks herr sizeofFwDir hlive.dirs hnil hown) ?_ ?_
      · rintro r s₁ hopens₁ - - ⟨-, ⟨hptr, hcells, hzero⟩, hown₁⟩
        have hrecord : r.1.Written FwDir.Written := by
          refine CArray.written_of_block hptr ?_
          rw [hcells]
          exact hlive.dirs.ok
        have hown₁' : s₁.Owns (FwState.owned { state with dirVec := r.2 } + (r.1.owned FwDir.owned + F)) :=
          hown₁.of_eq (by rw [FwState.owned, hzero, FwVector.zero_owned]; abel)
        have hdestroy := @releases_destroy { state with dirVec := r.2 } hlive.paths.written
          (by rw [hzero]; exact CArray.written_null _) hlive.self.ne_uninit
        refine Returns.bind_of (hdestroy s₁ _ hown₁') ?_
        rintro _ s₂ ⟨hown₂, hquiet⟩
        exact returns_pure.2 ⟨hquiet.opens.trans hopens₁,
          .inr ⟨rfl, hrecord, hown₂, Nat.eq_zero_of_not_pos hcount, hcells⟩⟩
      · rintro r s₁ hopens₁ - - ⟨-, rfl, hown₁⟩
        exact returns_pure.2 ⟨hopens₁, .inl ⟨rfl, hown₁.of_eq (by rw [FwState.owned]; abel)⟩⟩

/-- With an error pending, a record that gets its memory leaves the walk with what was freed. -/
theorem jfsFwRecordInit_blocked {state : FwState} {pending : List CStr} {recorded : List WalkDir} {record : FwRecord}
    (hlive : state.Live s pending recorded F) (herr : s.err ≠ .ok) (hnone : state.pathVec.count = 0)
    (hsome : state.dirVec.count ≠ 0) (hgrant : s.Grants [sizeofFwDir * state.dirVec.count]) :
    Returns (jfsFwRecordInit record state) s fun r s' => r = (record, some state) ∧
      ∃ rest, s'.Owns ({.block s.allocCalls} + rest) := by
  have hnil : recorded ≠ [] := by
    rw [hlive.dirs.count] at hsome
    exact fun hnil => hsome (List.length_eq_zero_iff.2 hnil)
  have hown : s.Owns (state.dirVec.owned FwDir.owned + (state.pathVec.owned FioPath.owned +
    (state.self.owned + F))) := hlive.owns.of_eq (by rw [FwState.owned]; abel)
  rw [hlive.dirs.count] at hgrant
  unfold jfsFwRecordInit
  rw [if_neg (by omega)]
  refine Returns.bind_of (fwVectorToArray_blocked herr sizeofFwDir hlive.dirs hnil hown) ?_
  rintro _ s₁ ⟨rfl, herr₁, -, hown₁, -⟩
  exact (returns_check_err herr₁).2 (returns_pure.2 ⟨rfl, hown₁ hgrant⟩)

theorem jfsFwRecordFree_returns {record : FwRecord} (hrecord : record.dirArray.Written FwDir.Written)
    (hown : s.Owns (record.owned + F)) :
    Returns (jfsFwRecordFree record) s fun record' s' => record' = .zero ∧ s'.opens = s.opens ∧ s'.Owns F := by
  refine Returns.bind_of (releases_freeArray hrecord (fun _ hdir => (releases_dirFree hdir).then_pure _) s F hown) ?_
  rintro _ s₁ ⟨hown₁, hquiet⟩
  exact returns_pure.2 ⟨rfl, hquiet.opens, hown₁⟩

/-! ### Clients -/

/-- What a client of the walk holds: the walk that it works on, if any, and a record, which is zeros where it has
    none. -/
structure Client where
  state : Option FwState
  record : FwRecord

/-- What the client owns. -/
def Client.owned (c : Client) : Multiset Resource := (c.state.elim 0 FwState.owned) + c.record.owned

/-- A client before its first call. -/
def Client.init : Client := { state := none, record := .zero }

/-- The calls of a client. -/
inductive WalkCall where
  | create (startPath : FioPath)
  | step
  | recordInit
  | recordFree
  | destroy

/-- What the client has to see to: it creates a walk from a path that it wrote, when it has no other; steps need a walk,
    and so does a new record, for which the old one was freed. -/
def WalkCall.Allowed (c : Client) : WalkCall → Prop
  | .create startPath => c.state = none ∧ ∃ text, startPath.Holds text
  | .step => c.state ≠ none
  | .recordInit => c.state ≠ none ∧ c.record.dirArray.ptr = .null
  | .recordFree => True
  | .destroy => True

/-- A call of the client. -/
def Client.perform (c : Client) (call : WalkCall) : SysM Client := do
  match call with
  | .create startPath =>
      let state ← jfsFwStateCreate startPath
      return { c with state := state }
  | .step =>
      match c.state with
      | none => return c
      | some state =>
          let (state, _) ← jfsFwStateStep state
          return { c with state := some state }
  | .recordInit =>
      match c.state with
      | none => return c
      | some state =>
          let (record, state) ← jfsFwRecordInit c.record state
          return { state := state, record := record }
  | .recordFree =>
      let record ← jfsFwRecordFree c.record
      return { c with record := record }
  | .destroy =>
      jfsFwStateDestroy c.state
      return { c with state := none }

/-- A creation that gets the memory of the state has no error pending and gets that of both vectors. A step with a path
    to visit has no error pending when it gets the memory of its vector of files, and neither has a record of what
    was found when it gets the memory of its array. -/
def WalkCall.Safe (s : Sys) (c : Client) : WalkCall → Prop
  | .create _ => s.Grants [sizeofFwState] → s.err = .ok ∧ s.Grants createRequests
  | .step => ∀ state, c.state = some state → state.pathVec.count ≠ 0 → s.Grants [sizeofFwFile * 16] → s.err = .ok
  | .recordInit => ∀ state, c.state = some state → state.pathVec.count = 0 → state.dirVec.count ≠ 0 →
      s.Grants [sizeofFwDir * state.dirVec.count] → s.err = .ok
  | .recordFree => True
  | .destroy => True

/-- The system and the client after any number of safe calls, beginning with the system `start`. Between the calls
    the client may leave in `*err` what is there, reset it, or store anything else. -/
inductive WalkRun (start : Sys) : Sys → Client → Prop
  | start : WalkRun start start .init
  | errs {s : Sys} {c : Client} (run : WalkRun start s c) (err : JclErr) : WalkRun start { s with err := err } c
  | call {s s' : Sys} {c c' : Client} {call : WalkCall} (run : WalkRun start s c) (hallowed : call.Allowed c)
      (hsafe : call.Safe s c) (hcall : (c.perform call).run s = .ok (c', s')) : WalkRun start s' c'

/-- The log shows that everything was given back once: what was freed or closed had been handed out and was not given
    back before, every stream was closed, and every block was freed but for those that the client owns, which is
    every block where it has neither a walk nor a record. -/
structure Accounted (c : Client) (s : Sys) : Prop where
  freed : ∀ newer older id, s.events = newer ++ .freed id :: older → .allocated id ∈ older ∧ .freed id ∉ older
  closed : ∀ newer older id, s.events = newer ++ .closed id :: older → .opened id ∈ older ∧ .closed id ∉ older
  streams : ∀ id, .opened id ∈ s.events → .closed id ∈ s.events
  held : ∀ id, .allocated id ∈ s.events → .freed id ∈ s.events ∨ .block id ∈ c.owned
  blocks : c.state = none → c.record.dirArray.ptr = .null → ∀ id, .allocated id ∈ s.events → .freed id ∈ s.events

/-! ### What a client holds is accounted for -/

/-- There are only blocks among these resources. -/
def NoStreams (owned : Multiset Resource) : Prop := ∀ id, .stream id ∉ owned

theorem NoStreams.zero : NoStreams 0 := fun _ => Multiset.notMem_zero _

theorem NoStreams.add {a b : Multiset Resource} (ha : NoStreams a) (hb : NoStreams b) : NoStreams (a + b) := by
  intro id hmem
  rcases Multiset.mem_add.1 hmem with hmem | hmem
  · exact ha id hmem
  · exact hb id hmem

theorem Ptr.noStreams (ptr : Ptr) : NoStreams ptr.owned := by
  intro id hmem
  cases ptr with
  | block other => cases Multiset.mem_singleton.1 hmem
  | null => exact Multiset.notMem_zero _ hmem
  | uninit => exact Multiset.notMem_zero _ hmem

theorem CArray.noStreams {α : Type} {own : α → Multiset Resource} (h : ∀ item, NoStreams (own item))
    (array : CArray α) : NoStreams (array.owned own) := by
  have hcells : ∀ cells : List α, NoStreams (cells.map own).sum := by
    intro cells
    induction cells with
    | nil => exact NoStreams.zero
    | cons item rest ih => exact (h item).add ih
  exact (hcells array.cells).add array.ptr.noStreams

theorem FwDir.noStreams (dir : FwDir) : NoStreams dir.owned :=
  (CArray.noStreams (fun file => file.name.str.ptr.noStreams) dir.files).add dir.path.str.ptr.noStreams

theorem FwState.noStreams (state : FwState) : NoStreams state.owned :=
  (CArray.noStreams (fun path => path.str.ptr.noStreams) state.pathVec.array).add
    ((CArray.noStreams FwDir.noStreams state.dirVec.array).add state.self.noStreams)

theorem Client.noStreams (c : Client) : NoStreams c.owned := by
  refine NoStreams.add ?_ (CArray.noStreams FwDir.noStreams c.record.dirArray)
  cases c.state with
  | none => exact NoStreams.zero
  | some state => exact state.noStreams

/-- Everything that the client holds was written, and the system accounts for it. -/
structure Client.Kept (c : Client) (s : Sys) : Prop where
  owns : s.Owns c.owned
  posix : Posix s
  state : ∀ state, c.state = some state → ∃ pending recorded, state.Whole pending recorded
  record : c.record.dirArray.Written FwDir.Written

/-- A client without a walk and without a record owns nothing. -/
theorem Client.Kept.owned_nil {c : Client} (h : c.Kept s) (hstate : c.state = none)
    (hrecord : c.record.dirArray.ptr = .null) : c.owned = 0 := by
  rw [Client.owned, FwRecord.owned, CArray.owned, hstate, h.record.null hrecord, hrecord]
  rfl

theorem mem_entries {event : Event} {events : List Event} :
    event.entry ∈ events.map Event.entry ↔ event ∈ events :=
  List.mem_map_of_injective Event.entry_injective

/-- What the invariant says of the log. -/
theorem Client.Kept.accounted {c : Client} (h : c.Kept s) : Accounted c s where
  freed newer older id hevents := by
    have hbalanced := h.owns.balanced
    rw [hevents, List.map_append, List.map_cons] at hbalanced
    have hbefore := hbalanced.released_before
    exact ⟨mem_entries.1 hbefore.1, fun hmem => hbefore.2 (mem_entries.2 hmem)⟩
  closed newer older id hevents := by
    have hbalanced := h.owns.balanced
    rw [hevents, List.map_append, List.map_cons] at hbalanced
    have hbefore := hbalanced.released_before
    exact ⟨mem_entries.1 hbefore.1, fun hmem => hbefore.2 (mem_entries.2 hmem)⟩
  streams id hopened := by
    by_contra hnot
    refine c.noStreams id (h.owns.balanced.mem_of_acquired (mem_entries.2 hopened) ?_)
    exact fun hmem => hnot (mem_entries.1 hmem)
  held id hallocated := by
    by_cases hfreed : Event.freed id ∈ s.events
    · exact .inl hfreed
    · exact .inr (h.owns.balanced.mem_of_acquired (mem_entries.2 hallocated) fun hmem => hfreed (mem_entries.1 hmem))
  blocks hstate hrecord id hallocated := by
    have hbalanced := h.owns.balanced
    rw [h.owned_nil hstate hrecord] at hbalanced
    exact mem_entries.1 (hbalanced.released_of_zero (mem_entries.2 hallocated))

/-! ### Runs -/

theorem Client.init_kept (hevents : s.events = []) (hposix : Posix s) : Client.init.Kept s where
  owns := by
    refine ⟨?_, ?_, ?_⟩
    · rw [hevents]
      exact .nil
    · rw [hevents]
      exact fun id hmem => absurd hmem List.not_mem_nil
    · rw [hevents]
      exact fun id hmem => absurd hmem List.not_mem_nil
  posix := hposix
  state := by simp [Client.init]
  record := CArray.written_null _

/-- What the client stores in `*err`. -/
theorem Client.Kept.errs {c : Client} (h : c.Kept s) (err : JclErr) : c.Kept { s with err := err } :=
  ⟨h.owns.errors s.errno err, ⟨h.posix.empty, h.posix.names⟩, h.state, h.record⟩

theorem Client.Kept.live {c : Client} {state : FwState} (h : c.Kept s) (hstate : c.state = some state) :
    ∃ pending recorded, state.Live s pending recorded c.record.owned := by
  obtain ⟨pending, recorded, hwhole⟩ := h.state state hstate
  refine ⟨pending, recorded, hwhole, ?_, h.posix⟩
  have hown := h.owns
  rw [Client.owned, hstate] at hown
  exact hown

/-- A client that works on a live state. -/
theorem FwState.Live.kept {state : FwState} {pending : List CStr} {recorded : List WalkDir} {record : FwRecord}
    (h : state.Live s pending recorded record.owned) (hrecord : record.dirArray.Written FwDir.Written) :
    Client.Kept { state := some state, record := record } s where
  owns := h.owns
  posix := h.posix
  state := by
    rintro _ ⟨⟩
    exact ⟨pending, recorded, h.toWhole⟩
  record := hrecord

/-- A client without a walk. -/
theorem Client.kept_none {record : FwRecord} (hown : s.Owns record.owned) (hposix : Posix s)
    (hrecord : record.dirArray.Written FwDir.Written) : Client.Kept { state := none, record := record } s where
  owns := by rwa [Client.owned, Option.elim_none, zero_add]
  posix := hposix
  state := by simp
  record := hrecord

/-- One safe call keeps the invariant. -/
theorem Client.Kept.call {c : Client} (hkept : c.Kept s) {call : WalkCall} (hallowed : call.Allowed c)
    (hsafe : call.Safe s c) : Returns (c.perform call) s fun c' s' => c'.Kept s' := by
  cases call with
  | create startPath =>
      obtain ⟨hnone, text, hstart⟩ := hallowed
      have hown := hkept.owns
      rw [Client.owned, hnone, Option.elim_none, zero_add] at hown
      refine Returns.bind_of (jfsFwStateCreate_returns hstart hown hkept.posix hsafe) ?_
      rintro created s₁ ⟨hopens, ⟨rfl, hown₁⟩ | ⟨state, rfl, hlive⟩⟩
      · exact returns_pure.2 (Client.kept_none hown₁ (hkept.posix.of_opens hopens) hkept.record)
      · exact returns_pure.2 (hlive.kept hkept.record)
  | step =>
      cases hstate : c.state with
      | none => exact absurd hstate hallowed
      | some state =>
          obtain ⟨pending, recorded, hlive⟩ := hkept.live hstate
          rw [Client.perform, hstate]
          refine Returns.bind_of (step_keeps_live hlive (hsafe state hstate)) ?_
          rintro r s₁ ⟨pending', recorded', hlive'⟩
          exact returns_pure.2 (hlive'.kept hkept.record)
  | recordInit =>
      obtain ⟨hsome, hnull⟩ := hallowed
      cases hstate : c.state with
      | none => exact absurd hstate hsome
      | some state =>
          obtain ⟨pending, recorded, hlive⟩ := hkept.live hstate
          have hempty : c.record.owned = 0 := by
            rw [FwRecord.owned, CArray.owned, hkept.record.null hnull, hnull]
            rfl
          rw [Client.perform, hstate]
          refine Returns.bind_of (jfsFwRecordInit_returns hlive (hsafe state hstate)) ?_
          rintro ⟨record, state'⟩ s₁ ⟨hopens, ⟨hr, hown₁⟩ | ⟨hr, hrecord, hown₁, -⟩⟩
          · cases hr
            exact returns_pure.2 (FwState.Live.kept ⟨hlive.toWhole, hown₁, hkept.posix.of_opens hopens⟩ hkept.record)
          · cases hr
            rw [hempty, add_zero] at hown₁
            exact returns_pure.2 (Client.kept_none hown₁ (hkept.posix.of_opens hopens) hrecord)
  | recordFree =>
      have hown := hkept.owns
      rw [Client.owned, add_comm] at hown
      refine Returns.bind_of (jfsFwRecordFree_returns hkept.record hown) ?_
      rintro _ s₁ ⟨rfl, hopens, hown₁⟩
      refine returns_pure.2 ⟨?_, hkept.posix.of_opens hopens, hkept.state, CArray.written_null _⟩
      exact hown₁.of_eq (add_zero _).symm
  | destroy =>
      cases hstate : c.state with
      | none =>
          have hown := hkept.owns
          rw [Client.owned, hstate, Option.elim_none, zero_add] at hown
          rw [Client.perform, hstate]
          exact returns_bind.2 (returns_pure.2 (returns_pure.2 (Client.kept_none hown hkept.posix hkept.record)))
      | some state =>
          obtain ⟨pending, recorded, hlive⟩ := hkept.live hstate
          have hdestroy := releases_destroy hlive.paths.written hlive.dirs.written_self
            hlive.self.ne_uninit
          rw [Client.perform, hstate]
          refine Returns.bind_of (hdestroy _ _ hlive.owns) ?_
          rintro _ s₁ ⟨hown₁, hquiet⟩
          exact returns_pure.2 (Client.kept_none hown₁ (hkept.posix.of_opens hquiet.opens) hkept.record)

/-- A block that was handed out and that nobody has is not accounted for. -/
theorem Client.Kept.not_accounted {c c' : Client} {s' : Sys} {rest : Multiset Resource} (h : c.Kept s)
    (howned : c'.owned = c.owned) (hown : s'.Owns ({.block s.allocCalls} + rest)) : ¬ Accounted c' s' := by
  intro haccounted
  have hmem : Resource.block s.allocCalls ∈ ({.block s.allocCalls} + rest : Multiset Resource) := by simp
  have hallocated : .allocated s.allocCalls ∈ s'.events := mem_entries.1 (hown.balanced.acquired_of_mem hmem)
  rcases haccounted.held _ hallocated with hfreed | hheld
  · exact hown.balanced.not_released_of_mem hmem (mem_entries.2 hfreed)
  · rw [howned] at hheld
    exact h.owns.fresh_block (h.owns.balanced.acquired_of_mem hheld)

/-- A call that is not safe uses what was not written, or loses a block. -/
theorem Client.Kept.safe_of_accounted {c : Client} (h : c.Kept s) {call : WalkCall}
    (haccounted : Returns (c.perform call) s fun c' s' => Accounted c' s') : call.Safe s c := by
  cases call with
  | create startPath =>
      intro hself
      rw [Client.perform, returns_bind] at haccounted
      exact createRequests_of_returns h.owns hself haccounted
  | step =>
      intro state hstate hcount hgrant
      by_contra herr
      obtain ⟨pending, recorded, hlive⟩ := h.live hstate
      have hne : pending ≠ [] := by
        rw [hlive.paths.count] at hcount
        exact fun hnil => hcount (List.length_eq_zero_iff.2 hnil)
      rw [Client.perform, hstate, returns_bind] at haccounted
      obtain ⟨r, s', -, hQ, rfl, -, hlost, -⟩ := haccounted.and (step_blocked hlive hne herr)
      exact h.not_accounted (by rw [Client.owned, Client.owned, hstate]) (hlost hgrant) (returns_pure.1 hQ)
  | recordInit =>
      intro state hstate hnone hsome hgrant
      by_contra herr
      obtain ⟨pending, recorded, hlive⟩ := h.live hstate
      rw [Client.perform, hstate, returns_bind] at haccounted
      obtain ⟨r, s', -, hQ, rfl, rest, hlost⟩ :=
        haccounted.and (jfsFwRecordInit_blocked hlive herr hnone hsome hgrant)
      exact h.not_accounted (by rw [Client.owned, Client.owned, hstate]) hlost (returns_pure.1 hQ)
  | recordFree => trivial
  | destroy => trivial

/-- Every run of a client keeps the invariant. -/
theorem WalkRun.kept {start : Sys} {c : Client} (hrun : WalkRun start s c) (hevents : start.events = [])
    (hposix : Posix start) : c.Kept s := by
  induction hrun with
  | start => exact Client.init_kept hevents hposix
  | errs run err ih => exact ih.errs err
  | call run hallowed hsafe hcall ih => exact (ih.call hallowed hsafe).det hcall

/-- Over any run of safe calls, whatever the system refuses, everything is given back once; and the next call comes back
    and keeps this if and only if it is safe. -/
theorem released_once_iff {start : Sys} (hevents : start.events = []) (hposix : Posix start) :
    ∀ s c, WalkRun start s c → Accounted c s ∧ ∀ call : WalkCall, call.Allowed c →
      ((Returns (c.perform call) s fun c' s' => Accounted c' s') ↔ call.Safe s c) := by
  intro s c hrun
  have hkept := hrun.kept hevents hposix
  refine ⟨hkept.accounted, ?_⟩
  intro call hallowed
  constructor
  · exact fun hreturns => hkept.safe_of_accounted hreturns
  · exact fun hsafe => (hkept.call hallowed hsafe).mono fun _ _ h => h.accounted

/-- A system with one directory, `a`, that is empty. It grants the allocations with the numbers in `granted`. -/
def bareSys (granted : Nat → Bool) : Sys where
  allocs n _ := granted n
  opens _ path := if path = [97] then .ok { entries := [], error := none } else .error .enoent
  allocCalls := 0
  openCalls := 0
  events := []
  errno := none
  err := .ok

theorem bareSys_posix (granted : Nat → Bool) : Posix (bareSys granted) where
  empty := fun _ => ⟨.enoent, rfl⟩
  names := by
    intro n path stream hopen ent hent
    simp only [bareSys] at hopen
    split at hopen
    · cases hopen
      exact absurd hent List.not_mem_nil
    · cases hopen

/-- The path `a`, which the client wrote. -/
def clientPath : FioPath := { len := 1, str := { ptr := .block 0, cells := [97] } }

theorem clientPath_allowed : (WalkCall.create clientPath).Allowed .init :=
  ⟨rfl, [97], ⟨0, rfl⟩, rfl, rfl⟩

/-- Where only the first allocation is granted, a creation uses a vector that was never written. -/
theorem create_uses_unwritten : WalkRun (bareSys (· == 0)) (bareSys (· == 0)) .init ∧
    (WalkCall.create clientPath).Allowed .init ∧
    Fails (Client.init.perform (.create clientPath)) (bareSys (· == 0)) .uninitialized ∧
    ¬ Returns (Client.init.perform (.create clientPath)) (bareSys (· == 0)) fun c' s' => Accounted c' s' := by
  have hfails : Fails (Client.init.perform (.create clientPath)) (bareSys (· == 0)) .uninitialized := rfl
  exact ⟨.start, clientPath_allowed, hfails, hfails.not_returns⟩

/-- The walk over `a` is done, and `a` was recorded. -/
theorem bareSys_walked : ∃ s c state, WalkRun (bareSys fun _ => true) s c ∧ c.state = some state ∧
    c.record.dirArray.ptr = .null ∧ state.pathVec.count = 0 ∧ state.dirVec.count = 1 ∧ s.Grants [sizeofFwDir * 1] := by
  have hcreated : WalkRun (bareSys fun _ => true) _ _ :=
    @WalkRun.call _ _ _ _ _ (.create clientPath) .start clientPath_allowed (fun _ => ⟨rfl, rfl⟩) rfl
  have hwalked : WalkRun (bareSys fun _ => true) _ _ :=
    @WalkRun.call _ _ _ _ _ .step hcreated (Option.some_ne_none _) (fun _ _ _ _ => rfl) rfl
  exact ⟨_, _, _, hwalked, rfl, rfl, rfl, rfl, rfl⟩

/-- An error left in `*err` costs a record the array that it gets; after a reset it does not. -/
theorem released_once_bare : ∃ s c, WalkRun (bareSys fun _ => true) s c ∧ s.err = .fwSkip ∧ c.state ≠ none ∧
    Accounted c s ∧ ¬ (Returns (c.perform .recordInit) s fun c' s' => Accounted c' s') ∧
    Returns (c.perform .recordInit) { s with err := .ok } fun c' s' => Accounted c' s' := by
  obtain ⟨s, c, state, hrun, hstate, hrecord, hpaths, hdirs, hgrant⟩ := bareSys_walked
  have hallowed : WalkCall.recordInit.Allowed c := ⟨by simp [hstate], hrecord⟩
  obtain ⟨haccounted, hblocked⟩ := released_once_iff rfl (bareSys_posix fun _ => true) _ _ (hrun.errs .fwSkip)
  obtain ⟨-, hreset⟩ := released_once_iff rfl (bareSys_posix fun _ => true) _ _ (hrun.errs .ok)
  have hunsafe : ¬ WalkCall.recordInit.Safe { s with err := .fwSkip } c := by
    intro hsafe
    have herr := hsafe state hstate hpaths (by simp [hdirs]) (by rwa [hdirs])
    cases herr
  exact ⟨_, c, hrun.errs .fwSkip, rfl, hallowed.1, haccounted, mt (hblocked _ hallowed).1 hunsafe,
    (hreset _ hallowed).2 fun _ _ _ _ _ => rfl⟩

end Jcl
