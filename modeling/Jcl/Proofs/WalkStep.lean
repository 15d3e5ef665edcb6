/-
Module: Jcl.Proofs.WalkStep
Layer: Proofs
Purpose: One step of the walk, whatever the system refuses. Each part of the step succeeds if what it asks for is
  granted; where it is not, the cleanup releases what the step took, and what the step left in the state is said
  exactly. A directory is recorded if all requests of the step are granted and at no other time.
Imports: Jcl.Proofs.WalkScan
Trusted boundary: human-reviewed spec (Posix, FwState.Whole, FwState.Live)
Main exports: Posix, FwState.Whole, FwState.Live, stepErr, stepCleanup_spec, stepRecord_asks, VisitLeft,
  stepVisit_attempts, step_attempts, step_blocked, step_live,
  step_keeps_live
-/
import Jcl.Proofs.WalkScan

namespace Jcl

variable {s : Sys} {F : Multiset Resource}

/-! ### The record -/

/-- The directory takes over the files of the vector and the path, or leaves both where they are. -/
theorem fwDirInit_asks {dirPath : FioPath} {path : CStr} (hpath : dirPath.Holds path)
    {fileVec : FwVector FwFile} {files : List WalkEntry} (hfiles : FilesHold fileVec files) (herr : s.err = .ok)
    (hown : s.Owns (fileVec.owned FwFile.owned + (dirPath.owned + F))) (dirInit : FwDir) :
    Asks (fwDirInit dirInit fileVec dirPath) s (filesRequests files)
      (fun r s' => (r.1.Written ∧ r.1.shown = { path := path, files := files } ∧ r.2.1 = .zero ∧ r.2.2 = .zero) ∧
        s'.Owns (r.1.owned + F))
      (fun r s' => r = (dirInit, fileVec, dirPath) ∧
        s'.Owns (fileVec.owned FwFile.owned + (dirPath.owned + F))) := by
  have htext : dirPath.text = path := hpath.cells
  unfold fwDirInit filesRequests
  rw [hfiles.count]
  by_cases hnil : files = []
  · subst hnil
    simp only [jfsFioPathTransfer, List.length_nil, gt_iff_lt, Nat.lt_irrefl, if_false, if_true]
    have hfree := releases_vectorFree hfiles.written (fun _ hfile => releases_fileFree hfile) s _ hown
    refine Returns.bind_of (fwVectorFree_clears hfree) ?_
    rintro vec s₁ ⟨rfl, hown₁, hquiet⟩
    refine returns_pure.2 ⟨hquiet.opens, .inl ⟨s.grants_nil, hquiet.err.trans herr, hquiet.served, ?_, ?_⟩⟩
    · exact ⟨⟨CArray.written_null _, hpath.ptr.ne_uninit⟩, by rw [FwDir.shown, htext]; rfl, rfl, rfl⟩
    · simpa [FwDir.owned, CArray.owned, CArray.null, Ptr.owned] using hown₁
  · have hpos : files.length > 0 := List.length_pos_iff.2 hnil
    simp only [jfsFioPathTransfer, hnil, if_false, hpos, if_true]
    refine Asks.last (fwVectorToArray_asks herr sizeofFwFile hfiles hnil hown) ?_ ?_
    · rintro r s₁ herr₁ ⟨⟨hptr, hcells, hzero⟩, hown₁⟩
      have hfilesOk : ∀ file ∈ r.1.cells, file.Written := by
        rw [hcells]
        exact fun file hfile => (hfiles.ok file hfile).ptr.ne_uninit
      refine Asks.pure herr₁ ⟨⟨⟨CArray.written_of_block hptr hfilesOk, hpath.ptr.ne_uninit⟩, ?_, hzero, rfl⟩, ?_⟩
      · simp only [FwDir.shown, htext, hcells, hfiles.view]
      · rwa [FwDir.owned, add_assoc]
    · rintro r s₁ herr₁ ⟨rfl, hown₁⟩
      exact returns_pure.2 ⟨rfl, herr₁, rfl, hown₁⟩

/-! ### The cleanup -/

/-- What a step reports where one of its parts reports `err`. -/
def stepErr (err : JclErr) : JclErr :=
  if err = .access then .fwSkip else if err = .invalPath then .fwFail else err

theorem stepErr_ne_ok {err : JclErr} (h : err ≠ .ok) : stepErr err ≠ .ok := by
  unfold stepErr
  split
  · decide
  · split
    · decide
    · exact h

theorem returns_remaps {Q : Unit → Sys → Prop} :
    Returns (do remapErr .access .fwSkip; remapErr .invalPath .fwFail) s Q ↔ Q () { s with err := stepErr s.err } := by
  simp only [returns_bind, returns_remapErr]
  by_cases haccess : s.err = .access
  · simp [haccess, stepErr]
  · by_cases hinval : s.err = .invalPath
    · simp [hinval, stepErr]
    · simp [haccess, hinval, stepErr]

/-- The cleanup releases all that the locals own, and keeps an error an error. -/
theorem stepCleanup_spec (state : FwState) {fileVec : FwVector FwFile} {dirPath : FioPath} {dir : FwDir}
    (sysDir : Option DirHandle) (hfiles : fileVec.array.Written FwFile.Written) (hpath : dirPath.Written)
    (hdir : dir.Written)
    (hown : s.Owns (streamOwned sysDir + (fileVec.owned FwFile.owned + (dirPath.owned + (dir.owned + F))))) :
    Returns (stepCleanup state fileVec dirPath dir sysDir) s fun r s' =>
      r = (state, decide (state.pathVec.count = 0)) ∧ s'.err = stepErr s.err ∧ s'.opens = s.opens ∧ s'.Owns F := by
  -- From the point on where the stream is closed.
  have hlocals : ∀ s₁, s₁.Owns (fileVec.owned FwFile.owned + (dirPath.owned + (dir.owned + F))) → Quiet s s₁ →
      Returns (stepCleanup state fileVec dirPath dir none) s₁ fun r s' =>
        r = (state, decide (state.pathVec.count = 0)) ∧ s'.err = stepErr s.err ∧ s'.opens = s.opens ∧ s'.Owns F := by
    intro s₁ hown₁ hquiet₁
    unfold stepCleanup
    refine Returns.bind_of (releases_vectorFree hfiles (fun _ hfile => releases_fileFree hfile) s₁ _ hown₁) ?_
    rintro _ s₂ ⟨hown₂, hquiet₂⟩
    refine Returns.bind_of (releases_pathFree hpath s₂ _ hown₂) ?_
    rintro _ s₃ ⟨hown₃, hquiet₃⟩
    refine Returns.bind_of (releases_dirFree hdir s₃ _ hown₃) ?_
    rintro _ s₄ ⟨hown₄, hquiet₄⟩
    have hquiet := hquiet₁.trans (hquiet₂.trans (hquiet₃.trans hquiet₄))
    rw [← bind_assoc]
    refine returns_bind.2 (returns_remaps.2 (returns_pure.2 ⟨rfl, ?_, hquiet.opens, ?_⟩))
    · exact congrArg stepErr hquiet.err
    · exact hown₄.errors s₄.errno _
  cases sysDir with
  | none =>
      rw [streamOwned, zero_add] at hown
      exact hlocals s hown (Quiet.refl s)
  | some sysDir =>
      refine Returns.bind_of (releases_closedir sysDir s _ hown) ?_
      rintro _ s₁ ⟨hown₁, hquiet₁⟩
      exact hlocals s₁ hown₁ hquiet₁

/-- A step that fails ends with its cleanup. -/
theorem stepCleanup_fails {s₀ : Sys} {p : Prop} {Good Bad : FwState × Bool → Sys → Prop} {state : FwState}
    {fileVec : FwVector FwFile} {dirPath : FioPath} {dir : FwDir} {sysDir : Option DirHandle}
    (hfiles : fileVec.array.Written FwFile.Written) (hpath : dirPath.Written) (hdir : dir.Written)
    (hopens : s.opens = s₀.opens) (herr : s.err ≠ .ok)
    (hown : s.Owns (streamOwned sysDir + (fileVec.owned FwFile.owned + (dirPath.owned + (dir.owned + F)))))
    (hp : ¬ p) (hbad : ∀ s', s'.opens = s₀.opens → s'.Owns F → Bad (state, decide (state.pathVec.count = 0)) s') :
    Returns (stepCleanup state fileVec dirPath dir sysDir) s fun r s' =>
      s'.opens = s₀.opens ∧ ((p ∧ s'.err = .ok ∧ Good r s') ∨ (¬ p ∧ s'.err ≠ .ok ∧ Bad r s')) := by
  refine (stepCleanup_spec state sysDir hfiles hpath hdir hown).mono ?_
  rintro _ s' ⟨rfl, herr', hopens', hown'⟩
  refine ⟨hopens'.trans hopens, .inr ⟨hp, ?_, hbad s' (hopens'.trans hopens) hown'⟩⟩
  rw [herr']
  exact stepErr_ne_ok herr

/-! ### The step -/

/-- What POSIX says of `opendir` and `readdir`: the empty path names no directory, and the name of an entry is not
    empty and has no `'/'` in it. -/
structure Posix (s : Sys) : Prop where
  empty : ∀ n, ∃ errno, s.opens n [] = .error errno
  names : ∀ n path stream, s.opens n path = .ok stream → ∀ ent ∈ stream.entries, ent.isDots = false →
    ent.dName ≠ [] ∧ slash ∉ ent.dName

theorem Posix.of_opens {s' : Sys} (h : Posix s) (hopens : s'.opens = s.opens) : Posix s' :=
  ⟨by rw [hopens]; exact h.empty, by rw [hopens]; exact h.names⟩

theorem Posix.path_ne_nil (h : Posix s) {n : Nat} {path : CStr} {stream : DirStream}
    (hopen : s.opens n path = .ok stream) : path ≠ [] := by
  rintro rfl
  obtain ⟨errno, hempty⟩ := h.empty n
  rw [hempty] at hopen
  cases hopen

theorem Posix.validNames (h : Posix s) {n : Nat} {path : CStr} {stream : DirStream}
    (hopen : s.opens n path = .ok stream) : ValidNames (keptEntries stream.entries) := by
  intro file hfile
  obtain ⟨ent, hent, hkept⟩ := mem_keptEntries.1 hfile
  obtain ⟨hdots, hname, -⟩ := keptEntry_dir hkept
  rw [hname]
  exact h.names n path stream hopen ent hent hdots

/-- Every field of the state was written: these paths are pending, the one to visit next last, and these
    directories are recorded. -/
structure FwState.Whole (state : FwState) (pending : List CStr) (recorded : List WalkDir) : Prop where
  self : state.self.IsBlock
  paths : PathsHold state.pathVec pending
  dirs : FwVector.Holds FwDir.Written FwDir.shown state.dirVec recorded

/-- `jfs_fw_state_step` from `fw_push_dir_paths` on. -/
def stepRecord (state : FwState) (fileVec : FwVector FwFile) (dirPath : FioPath) (opened : DirHandle) :
    SysM (FwState × Bool) := do
  let pathVec ← fwPushDirPaths state.pathVec fileVec dirPath
  let state := { state with pathVec := pathVec }
  if ← failed then return ← stepCleanup state fileVec dirPath .zero (some opened)
  let (dir, fileVec, dirPath) ← fwDirInit .zero fileVec dirPath
  if ← failed then return ← stepCleanup state fileVec dirPath dir (some opened)
  let (dirVec, dir) ← fwDirVectorPush state.dirVec dir
  let state := { state with dirVec := dirVec }
  if ← failed then return ← stepCleanup state fileVec dirPath dir (some opened)
  closedir opened
  return (state, decide (state.pathVec.count > 0))

theorem FioPath.zero_written : FioPath.zero.Written := by simp [FioPath.Written, FioPath.zero, CArray.null]

theorem FwDir.zero_written : FwDir.zero.Written := ⟨CArray.written_null _, FioPath.zero_written⟩

theorem FwDir.zero_owned : FwDir.zero.owned = 0 := rfl

theorem FioPath.zero_owned : FioPath.zero.owned = 0 := rfl

theorem FwVector.zero_owned {α : Type} (own : α → Multiset Resource) : FwVector.zero.owned own = 0 := rfl

/-- The directory that was scanned is recorded if there is memory for the paths that it leads to and for its record.
    Where there is not, what was pushed stays pushed. -/
theorem stepRecord_asks {state : FwState} {pending : List CStr} {recorded : List WalkDir} {path : CStr}
    {files : List WalkEntry} {fileVec : FwVector FwFile} {dirPath : FioPath} (opened : DirHandle)
    (hstate : state.Whole pending recorded) (hpath : dirPath.Holds path) (hne : path ≠ [])
    (hfiles : FilesHold fileVec files) (hnames : ValidNames files) (herr : s.err = .ok)
    (hown : s.Owns (state.owned +
      (fileVec.owned FwFile.owned + (dirPath.owned + (streamOwned (some opened) + F))))) :
    Asks (stepRecord state fileVec dirPath opened) s
      (fillRequests sizeofFioPath state.pathVec.capacity state.pathVec.count (subdirs path files) ++
        (filesRequests files ++ pushRequests sizeofFwDir state.dirVec.capacity state.dirVec.count))
      (fun r s' => (r.1.Whole (pending ++ subdirs path files) (recorded ++ [{ path := path, files := files }]) ∧
        r.2 = decide (r.1.pathVec.count > 0)) ∧ s'.Owns (r.1.owned + F))
      (fun r s' => ((∃ pending', r.1.Whole pending' recorded) ∧ r.1.dirVec = state.dirVec ∧
        r.2 = decide (r.1.pathVec.count = 0) ∧
        ∃ pushed, Pushed state.pathVec r.1.pathVec s (subdirs path files) pushed) ∧ s'.Owns (r.1.owned + F)) := by
  -- The cleanup after an error leaves the state that it is given.
  have hexit : ∀ (state' : FwState) (fileVec' : FwVector FwFile) (dirPath' : FioPath) (dir : FwDir) (s₁ : Sys),
      fileVec'.array.Written FwFile.Written → dirPath'.Written → dir.Written → s₁.err = .sys →
      s₁.Owns (streamOwned (some opened) + (fileVec'.owned FwFile.owned + (dirPath'.owned + (dir.owned +
        (state'.owned + F))))) →
      (∃ pending', state'.Whole pending' recorded) → state'.dirVec = state.dirVec →
      (∃ pushed, Pushed state.pathVec state'.pathVec s (subdirs path files) pushed) →
      Returns (stepCleanup state' fileVec' dirPath' dir (some opened)) s₁ fun r s' =>
        s'.opens = s₁.opens ∧ s'.err = .sys ∧ (((∃ pending', r.1.Whole pending' recorded) ∧
          r.1.dirVec = state.dirVec ∧ r.2 = decide (r.1.pathVec.count = 0) ∧
          ∃ pushed, Pushed state.pathVec r.1.pathVec s (subdirs path files) pushed) ∧ s'.Owns (r.1.owned + F)) := by
    intro state' fileVec' dirPath' dir s₁ hfileVec' hdirPath' hdir herr₁ hown₁ hwhole hdirVec hpushed
    refine (stepCleanup_spec state' _ hfileVec' hdirPath' hdir hown₁).mono ?_
    rintro _ s₂ ⟨rfl, herr₂, hopens₂, hown₂⟩
    rw [herr₁] at herr₂
    exact ⟨hopens₂, herr₂, ⟨hwhole, hdirVec, rfl, hpushed⟩, hown₂⟩
  have hown₀ : s.Owns (state.pathVec.owned FioPath.owned + (fileVec.owned FwFile.owned + (dirPath.owned +
      (state.dirVec.owned FwDir.owned + state.self.owned + (streamOwned (some opened) + F))))) :=
    hown.of_eq (by rw [FwState.owned]; abel)
  unfold stepRecord
  refine Asks.bind (fwPushDirPaths_pushesOnto hpath hne hfiles hnames herr hstate.paths hown₀) ?_ ?_
  · rintro pathVec s₁ herr₁ - ⟨⟨hpathVec, hpushed⟩, hown₁⟩
    have hown₁' : s₁.Owns (fileVec.owned FwFile.owned + (dirPath.owned + (pathVec.owned FioPath.owned +
        (state.dirVec.owned FwDir.owned + state.self.owned + (streamOwned (some opened) + F))))) :=
      hown₁.of_eq (by abel)
    refine Asks.bind (fwDirInit_asks hpath hfiles herr₁ hown₁' .zero) ?_ ?_
    · rintro ⟨dir, fileVec', dirPath'⟩ s₂ herr₂ - ⟨⟨hdir, hshown, rfl, rfl⟩, hown₂⟩
      have hown₂' : s₂.Owns (state.dirVec.owned FwDir.owned + (dir.owned + (pathVec.owned FioPath.owned +
          (state.self.owned + (streamOwned (some opened) + F))))) := hown₂.of_eq (by abel)
      have htransfer : jfsFwDirTransfer dir = (dir, .zero) := rfl
      refine Asks.last (fwVectorPush_asks herr₂ sizeofFwDir htransfer hstate.dirs hdir hown₂') ?_ ?_
      · rintro r s₃ herr₃ ⟨⟨hdirVec, -, -, -⟩, hown₃⟩
        have hown₃' : s₃.Owns ({.stream opened.id} +
            (FwState.owned { state with pathVec := pathVec, dirVec := r.1 } + F)) :=
          hown₃.of_eq (by simp only [FwState.owned, streamOwned]; abel)
        refine Returns.bind_of (releases_closedir opened s₃ _ hown₃') ?_
        rintro _ s₄ ⟨hown₄, hquiet⟩
        rw [hshown] at hdirVec
        exact returns_pure.2 ⟨hquiet.opens, .inl ⟨s₃.grants_nil, hquiet.err.trans herr₃, hquiet.served,
          ⟨⟨hstate.self, hpathVec, hdirVec⟩, rfl⟩, hown₄⟩⟩
      · rintro r s₃ herr₃ ⟨rfl, hown₃⟩
        refine hexit { state with pathVec := pathVec } .zero .zero dir s₃ (CArray.written_null _)
          FioPath.zero_written hdir herr₃ ?_
          ⟨_, hstate.self, hpathVec, hstate.dirs⟩ rfl hpushed
        exact hown₃.of_eq (by simp only [FwState.owned, FwVector.zero_owned, FioPath.zero_owned]; abel)
    · rintro r s₂ herr₂ ⟨rfl, hown₂⟩
      refine hexit { state with pathVec := pathVec } fileVec dirPath .zero s₂ hfiles.written hpath.ptr.ne_uninit
        FwDir.zero_written herr₂ ?_ ⟨_, hstate.self, hpathVec, hstate.dirs⟩ rfl hpushed
      exact hown₂.of_eq (by simp only [FwState.owned, FwDir.zero_owned]; abel)
  · rintro pathVec s₁ herr₁ ⟨⟨⟨texts, hpathVec⟩, hpushed⟩, hown₁⟩
    refine hexit { state with pathVec := pathVec } fileVec dirPath .zero s₁ hfiles.written hpath.ptr.ne_uninit
      FwDir.zero_written herr₁ ?_ ⟨texts, hstate.self, hpathVec, hstate.dirs⟩ rfl hpushed
    exact hown₁.of_eq (by simp only [FwState.owned, FwDir.zero_owned]; abel)

theorem Sys.Lists.unique {path : CStr} {stream stream' : DirStream} (h : s.Lists path stream)
    (hopen : s.opens s.openCalls path = .ok stream') : stream = stream' := by
  rw [h.opens] at hopen
  cases hopen
  rfl

theorem Sys.Lists.exists_iff {path : CStr} {stream : DirStream} (h : s.Lists path stream) {p : DirStream → Prop} :
    (∃ stream', s.Lists path stream' ∧ p stream') ↔ p stream := by
  constructor
  · rintro ⟨stream', hlists, hp⟩
    exact hlists.unique h.opens ▸ hp
  · exact fun hp => ⟨stream, h, hp⟩

/-- What a visit that failed left in the state. It left directories that it pushed if `pushes` holds. -/
structure VisitLeft (state state' : FwState) (path : CStr) (pushes : Prop) : Prop where
  dirs : state'.dirVec = state.dirVec
  paths : ∃ pushed, state'.pathVec.array.cells = state.pathVec.array.cells ++ pushed ∧
    (∀ kid ∈ pushed, path.length < kid.text.length) ∧ (pushed ≠ [] ↔ pushes)

/-- A visit that pushed nothing. -/
theorem VisitLeft.refl (state : FwState) (path : CStr) {pushes : Prop} (h : ¬ pushes) :
    VisitLeft state state path pushes :=
  ⟨rfl, [], (List.append_nil _).symm, fun _ hkid => absurd hkid List.not_mem_nil,
    fun hnil => absurd rfl hnil, fun hpushes => absurd hpushes h⟩

theorem length_lt_of_mem_subdirs {path kid : CStr} {files : List WalkEntry} (h : kid ∈ subdirs path files) :
    path.length < kid.length := by
  obtain ⟨file, -, -, rfl, -⟩ := mem_subdirs.1 h
  rw [length_composePath]
  omega

/-- The paths pending after a step failed that was to visit `path`: it did not come to that, or `path` is gone and the
    first of the directories in it may have been pushed. -/
inductive LeftPending (s : Sys) (path : CStr) (pending : List CStr) : List CStr → Prop where
  | kept : LeftPending s path pending (pending ++ [path])
  | lost : LeftPending s path pending pending
  | pushed {stream : DirStream} {kids : List CStr} (hlists : s.Lists path stream)
      (hkids : kids <+: subdirs path (keptEntries stream.entries)) : LeftPending s path pending (pending ++ kids)

theorem LeftPending.mono {s' : Sys} {path : CStr} {pending left : List CStr} (h : LeftPending s path pending left)
    (hlists : ∀ stream, s.Lists path stream → s'.Lists path stream) : LeftPending s' path pending left := by
  cases h with
  | kept => exact .kept
  | lost => exact .lost
  | pushed h hkids => exact .pushed (hlists _ h) hkids

/-- The state without the path that is visited next. -/
def FwState.popped (state : FwState) : FwState :=
  { state with
    pathVec := { state.pathVec with
      array := { state.pathVec.array with cells := state.pathVec.array.cells.dropLast } } }

theorem FwState.popped_count (state : FwState) : state.popped.pathVec.count = state.pathVec.count - 1 :=
  List.length_dropLast

/-- The directory at `path` can be opened and scanned, and every request of a step from the scan on is granted. -/
def Sys.GrantsVisit (s : Sys) (state : FwState) (path : CStr) : Prop :=
  ∃ stream, s.Lists path stream ∧ s.Grants (stepRequests state path (keptEntries stream.entries)).visit

/-- So are those up to the push of a first directory. -/
def Sys.GrantsVisitPush (s : Sys) (state : FwState) (path : CStr) : Prop :=
  ∃ stream, s.Lists path stream ∧ subdirs path (keptEntries stream.entries) ≠ [] ∧
    s.Grants ((stepRequests state path (keptEntries stream.entries)).scan ++
      (stepRequests state path (keptEntries stream.entries)).first)

/-- A visit that ends before it has scanned the directory. -/
theorem VisitLeft.early {state : FwState} {path : CStr} (h : ∀ stream, s.Lists path stream →
    ¬ s.Grants (stepRequests state path (keptEntries stream.entries)).scan) :
    ¬ s.GrantsVisit state path ∧ VisitLeft state.popped state.popped path (s.GrantsVisitPush state path) := by
  refine ⟨?_, VisitLeft.refl _ path ?_⟩
  · rintro ⟨stream, hlists, hgrants⟩
    exact h stream hlists hgrants.left
  · rintro ⟨stream, hlists, -, hgrants⟩
    exact h stream hlists hgrants.left

/-- From `opendir` on, with the path that is visited popped. -/
theorem stepVisit_attempts {state : FwState} {pending : List CStr} {recorded : List WalkDir} {path : CStr}
    {fileVec : FwVector FwFile} {dirPath : FioPath} (hstate : state.popped.Whole pending recorded)
    (hfiles : FilesHold fileVec []) (hroom : fileVec.capacity = 16) (hpath : dirPath.Holds path) (herr : s.err = .ok)
    (hposix : Posix s)
    (hown : s.Owns (state.popped.owned + (fileVec.owned FwFile.owned + (dirPath.owned + F)))) :
    Attempts (stepVisit state.popped fileVec dirPath) s (s.GrantsVisit state path)
      (fun r s' => ((∃ stream, s.Lists path stream ∧
        r.1.Whole (pending ++ subdirs path (keptEntries stream.entries))
          (recorded ++ [{ path := path, files := keptEntries stream.entries }])) ∧
        r.2 = decide (r.1.pathVec.count > 0)) ∧ s'.Owns (r.1.owned + F))
      (fun r s' => ((∃ pending', r.1.Whole pending' recorded ∧ LeftPending s path pending pending') ∧
        r.2 = decide (r.1.pathVec.count = 0) ∧
        VisitLeft state.popped r.1 path (s.GrantsVisitPush state path)) ∧ s'.Owns (r.1.owned + F)) := by
  have hscanSizes : ∀ stream : DirStream, fillRequests sizeofFwFile fileVec.capacity fileVec.count
      ((keptEntries stream.entries).map WalkEntry.name) =
        (stepRequests state path (keptEntries stream.entries)).scan := by
    intro stream
    rw [hroom, hfiles.count]
    rfl
  unfold stepVisit
  refine returns_bind.2 ((CArray.read_spec hpath.ptr).2 ?_)
  rw [hpath.cells]
  refine Attempts.check (jclOpendir_attempts herr hown path) ?_ ?_
  · rintro sysDir s₁ hopens₁ - herr₁ ⟨⟨handle, rfl, hopen⟩, hspent₁, hown₁⟩
    refine returns_bind.2 (returns_pure.2 ?_)
    have hown₁' : s₁.Owns (fileVec.owned FwFile.owned + (state.popped.owned + (dirPath.owned +
      (streamOwned (some handle) + F)))) := hown₁.of_eq (by abel)
    refine Attempts.check (fwScanDir_scansInto herr₁ handle hfiles hown₁') ?_ ?_
    · rintro fileVec' s₂ hopens₂ ⟨hscannable, hgrants₂⟩ herr₂ ⟨⟨hspent₂, hfiles'⟩, hown₂⟩
      have hlists : s.Lists path handle.stream := ⟨hopen, hscannable⟩
      rw [List.nil_append] at hfiles'
      rw [hscanSizes] at hgrants₂ hspent₂
      -- The scan was granted, so the requests are as the rest of the visit decides.
      have hsplit : ∀ sizes, s.Grants ((stepRequests state path (keptEntries handle.stream.entries)).scan ++ sizes) ↔
          s₂.Grants sizes := by
        intro sizes
        rw [hspent₁.grants_zero, hspent₂.grants]
        exact and_iff_right hgrants₂
      have hvisit : s.GrantsVisit state path ↔ s₂.Grants _ := hlists.exists_iff.trans (hsplit _)
      have hpushes : s.GrantsVisitPush state path ↔ subdirs path (keptEntries handle.stream.entries) ≠ [] ∧
          s₂.Grants _ := hlists.exists_iff.trans (and_congr_right' (hsplit _))
      simp only [stepRequests, ← FwState.popped_count] at hvisit hpushes
      rw [hvisit, hpushes]
      have hown₂' : s₂.Owns (state.popped.owned + (fileVec'.owned FwFile.owned + (dirPath.owned +
        (streamOwned (some handle) + F)))) := hown₂.of_eq (by abel)
      have hrecord := stepRecord_asks handle hstate hpath (hposix.path_ne_nil hopen) hfiles'
        (hposix.validNames hopen) herr₂ hown₂'
      refine Returns.mono hrecord ?_
      rintro r s₃ ⟨hopens₃, ⟨hgrants₃, herr₃, -, ⟨hwhole, hr⟩, hown₃⟩ |
        ⟨hrefused, herr₃, -, ⟨⟨pending', hwhole⟩, hdirVec, hr, pushed, hpushed⟩, hown₃⟩⟩
      · exact ⟨hopens₃.trans (hopens₂.trans hopens₁),
          .inl ⟨hgrants₃, herr₃, ⟨⟨_, hlists, hwhole⟩, hr⟩, hown₃⟩⟩
      · have hleft : pending' = pending ++ pushed.map FioPath.text := by
          rw [← hwhole.paths.view, hpushed.cells, List.map_append, hstate.paths.view]
        subst hleft
        refine ⟨hopens₃.trans (hopens₂.trans hopens₁), .inr ⟨hrefused, herr₃,
          ⟨⟨_, hwhole, .pushed hlists hpushed.texts⟩, hr, hdirVec, pushed, hpushed.cells, ?_, hpushed.first⟩, hown₃⟩⟩
        exact fun kid hkid => length_lt_of_mem_subdirs (hpushed.mem hkid)
    · rintro fileVec' s₂ hopens₂ hscan herr₂ ⟨⟨files', hfiles'⟩, hown₂⟩
      have hown₂' : s₂.Owns (streamOwned (some handle) + (fileVec'.owned FwFile.owned + (dirPath.owned +
        (FwDir.zero.owned + (state.popped.owned + F))))) := hown₂.of_eq (by rw [FwDir.zero_owned]; abel)
      have hrefused : ∀ stream, s.Lists path stream →
          ¬ s.Grants (stepRequests state path (keptEntries stream.entries)).scan := by
        intro stream hlists hgrants
        have hstream := hlists.unique hopen
        subst hstream
        rw [hscanSizes] at hscan
        exact hscan ⟨hlists.scannable, hspent₁.grants_zero.1 hgrants⟩
      obtain ⟨hnot, hleft⟩ := VisitLeft.early hrefused
      exact stepCleanup_fails hfiles'.written hpath.ptr.ne_uninit FwDir.zero_written (hopens₂.trans hopens₁) herr₂
        hown₂' hnot fun s₃ _ hown₃ => ⟨⟨⟨pending, hstate, .lost⟩, rfl, hleft⟩, hown₃⟩
  · rintro sysDir s₁ hopens₁ hclosed herr₁ ⟨rfl, hown₁⟩
    have hown₁' : s₁.Owns (streamOwned none + (fileVec.owned FwFile.owned + (dirPath.owned +
      (FwDir.zero.owned + (state.popped.owned + F))))) := hown₁.of_eq (by rw [FwDir.zero_owned, streamOwned]; abel)
    have hrefused : ∀ stream, s.Lists path stream →
        ¬ s.Grants (stepRequests state path (keptEntries stream.entries)).scan :=
      fun stream hlists _ => hclosed ⟨stream, hlists.opens⟩
    obtain ⟨hnot, hleft⟩ := VisitLeft.early hrefused
    exact stepCleanup_fails hfiles.written hpath.ptr.ne_uninit FwDir.zero_written hopens₁ herr₁ hown₁' hnot
      fun s₂ _ hown₂ => ⟨⟨⟨pending, hstate, .lost⟩, rfl, hleft⟩, hown₂⟩

/-- The last path is popped, and owned by the caller. -/
theorem fwPathVectorPop_last {state : FwState} {pending : List CStr} {recorded : List WalkDir} {path : CStr}
    (hstate : state.Whole (pending ++ [path]) recorded) (pathInit : FioPath) :
    Returns (fwPathVectorPop state.pathVec pathInit) s fun r s' =>
      s' = s ∧ { state with pathVec := r.1 } = state.popped ∧ r.2.Holds path ∧ state.popped.Whole pending recorded ∧
        state.owned = state.popped.owned + r.2.owned := by
  obtain ⟨cells, lastCells, hcells, hview, hlast⟩ := List.map_eq_append_iff.1 hstate.paths.view
  obtain ⟨last, rfl, hpath⟩ := List.map_eq_singleton_iff.1 hlast
  have hgetLast : state.pathVec.array.cells.getLast? = some last := by simp [hcells]
  have hdropLast : state.pathVec.array.cells.dropLast = cells := by simp [hcells]
  have hok : ∀ item ∈ cells ++ [last], item.Holds item.text := hcells ▸ hstate.paths.ok
  unfold fwPathVectorPop
  simp only [hgetLast, jfsFioPathTransfer, returns_pure]
  refine ⟨trivial, rfl, hpath ▸ hok last (by simp), ⟨hstate.self, ⟨hstate.paths.ptr, ?_, ?_⟩, hstate.dirs⟩, ?_⟩
  · simp only [FwState.popped, hdropLast]
    exact fun item hitem => hok item (List.mem_append_left _ hitem)
  · simp only [FwState.popped, hdropLast]
    exact hview
  · simp only [FwState.owned, FwVector.owned, CArray.owned, FwState.popped, hcells, List.dropLast_concat,
      List.map_append, List.map_cons, List.map_nil, List.sum_append, List.sum_cons, List.sum_nil]
    abel

/-- The state is whole, the system accounts for what it owns beside `F`, and answers as POSIX says. -/
structure FwState.Live (state : FwState) (s : Sys) (pending : List CStr) (recorded : List WalkDir)
    (F : Multiset Resource) : Prop extends state.Whole pending recorded where
  owns : s.Owns (state.owned + F)
  posix : Posix s

theorem Sys.Lists.congr {s' : Sys} {path : CStr} {stream : DirStream} (hopens : s'.opens = s.opens)
    (hcalls : s'.openCalls = s.openCalls) : s'.Lists path stream ↔ s.Lists path stream := by
  constructor
  · rintro ⟨hopen, hscannable⟩
    rw [hopens, hcalls] at hopen
    exact ⟨hopen, hscannable⟩
  · rintro ⟨hopen, hscannable⟩
    rw [← hopens, ← hcalls] at hopen
    exact ⟨hopen, hscannable⟩

/-- A step with a path pending records the directory there if everything that it asks for is granted. Where it fails,
    the records are as before; the paths are those before, or those before without the last, and then those that
    the step had pushed. -/
theorem step_attempts {state : FwState} {pending : List CStr} {recorded : List WalkDir} {path : CStr}
    (hlive : state.Live s (pending ++ [path]) recorded F) (herr : s.err = .ok) :
    Attempts (jfsFwStateStep state) s (s.GrantsStep state path)
      (fun r s' => (∃ stream, s.Lists path stream ∧
        r.1.Live s' (pending ++ subdirs path (keptEntries stream.entries))
          (recorded ++ [{ path := path, files := keptEntries stream.entries }]) F) ∧
        r.2 = decide (r.1.pathVec.count > 0))
      (fun r s' => (∃ pending', r.1.Live s' pending' recorded F ∧ LeftPending s path pending pending') ∧
        r.2 = decide (r.1.pathVec.count = 0) ∧
        (r.1 = state ∧ ¬ s.GrantsPush state path ∨ VisitLeft state.popped r.1 path (s.GrantsPush state path))) := by
  have hcount : state.pathVec.count = pending.length + 1 := by
    rw [hlive.paths.count, List.length_append, List.length_singleton]
  have hnonempty : state.pathVec.count ≠ 0 := by simp [hcount]
  have hinit : Asks (fwFileVectorInit .zero) s [sizeofFwFile * 16]
      (fun vec s' => (FilesHold vec [] ∧ vec.capacity = 16) ∧
        s'.Owns (vec.owned FwFile.owned + (state.owned + F)))
      (fun vec s' => vec = .zero ∧ s'.Owns (state.owned + F)) := fwVectorInit_asks herr hlive.owns _ _ _
  unfold jfsFwStateStep
  simp only [hnonempty, if_false]
  refine Attempts.check hinit ?_ ?_
  · rintro fileVec s₁ hopens₁ hgranted herr₁ ⟨hserved, ⟨hfiles, hroom⟩, hown₁⟩
    refine Returns.bind_of (fwPathVectorPop_last hlive.toWhole .zero) ?_
    rintro ⟨pathVec, dirPath⟩ s₁ ⟨rfl, hpopped, hpath, hwhole, howned⟩
    refine (returns_check_ok herr₁).2 ?_
    rw [hpopped]
    have hown₁' : s₁.Owns (state.popped.owned + (fileVec.owned FwFile.owned + (dirPath.owned + F))) :=
      hown₁.of_eq (by rw [howned]; abel)
    have hposix₁ := hlive.posix.of_opens hopens₁
    have hlists : ∀ stream, s₁.Lists path stream ↔ s.Lists path stream :=
      fun _ => Sys.Lists.congr hopens₁ hserved.openCalls
    have hstep : s.GrantsStep state path ↔ s₁.GrantsVisit state path :=
      exists_congr fun stream => and_congr (hlists stream).symm (hserved.grants.trans (and_iff_right hgranted))
    have hpush : s.GrantsPush state path ↔ s₁.GrantsVisitPush state path :=
      exists_congr fun stream => and_congr (hlists stream).symm (and_congr_right'
        (hserved.grants.trans (and_iff_right hgranted)))
    have hvisit := stepVisit_attempts hwhole hfiles hroom hpath herr₁ hposix₁ hown₁'
    simp only [hlists] at hvisit
    rw [hstep, hpush]
    refine hvisit.mono ?_
    rintro r s₂ ⟨hopens₂, ⟨hp, herr₂, ⟨⟨stream, hlists, hwhole₂⟩, hr⟩, hown₂⟩ |
      ⟨hp, herr₂, ⟨⟨pending', hwhole₂, hpending⟩, hr, hleft⟩, hown₂⟩⟩
    · exact ⟨hopens₂.trans hopens₁, .inl ⟨hp, herr₂,
        ⟨stream, hlists, hwhole₂, hown₂, hposix₁.of_opens hopens₂⟩, hr⟩⟩
    · exact ⟨hopens₂.trans hopens₁, .inr ⟨hp, herr₂,
        ⟨pending', ⟨hwhole₂, hown₂, hposix₁.of_opens hopens₂⟩, hpending.mono fun stream => (hlists stream).1⟩,
        hr, .inr hleft⟩⟩
  · rintro fileVec s₁ hopens₁ hrefused herr₁ ⟨-, rfl, hown₁⟩
    have hown₁' : s₁.Owns (streamOwned none + (FwVector.zero.owned FwFile.owned + (FioPath.zero.owned +
        (FwDir.zero.owned + (state.owned + F))))) :=
      hown₁.of_eq (by simp only [streamOwned, FwVector.zero_owned, FioPath.zero_owned, FwDir.zero_owned, zero_add])
    have hstep : ¬ s.GrantsStep state path := by
      rintro ⟨stream, -, hgrants⟩
      exact hrefused hgrants.left
    have hpush : ¬ s.GrantsPush state path := by
      rintro ⟨stream, -, -, hgrants⟩
      exact hrefused hgrants.left
    refine stepCleanup_fails (CArray.written_null _) FioPath.zero_written FwDir.zero_written hopens₁ herr₁
      hown₁' hstep ?_
    intro s₂ hopens₂ hown₂
    exact ⟨⟨_, ⟨hlive.toWhole, hown₂, hlive.posix.of_opens hopens₂⟩, .kept⟩, rfl, .inl ⟨rfl, hpush⟩⟩

theorem step_done {state : FwState} {recorded : List WalkDir} (hlive : state.Live s [] recorded F) :
    Returns (jfsFwStateStep state) s fun r s' => r = (state, true) ∧ s' = s ∧ state.pathVec.count = 0 := by
  have hcount : state.pathVec.count = 0 := hlive.paths.count
  unfold jfsFwStateStep
  simp only [hcount, if_true, returns_pure]
  exact ⟨trivial, trivial, trivial⟩

/-- A step that is called with an error pending gives up at once, and a vector of files that it gets is lost. -/
theorem step_blocked {state : FwState} {pending : List CStr} {recorded : List WalkDir}
    (hlive : state.Live s pending recorded F) (hne : pending ≠ []) (herr : s.err ≠ .ok) :
    Returns (jfsFwStateStep state) s fun r s' => r = (state, decide (state.pathVec.count = 0)) ∧
      s'.opens = s.opens ∧ (s.Grants [sizeofFwFile * 16] → s'.Owns ({.block s.allocCalls} + (state.owned + F))) ∧
      (¬ s.Grants [sizeofFwFile * 16] → s'.Owns (state.owned + F)) := by
  have hcount : state.pathVec.count ≠ 0 := by
    rw [hlive.paths.count]
    exact fun hzero => hne (List.length_eq_zero_iff.1 hzero)
  unfold jfsFwStateStep
  rw [if_neg hcount]
  refine Returns.bind_of (fwVectorInit_blocked herr hlive.owns _ _ _) ?_
  rintro _ s₁ ⟨rfl, herr₁, hopens₁, hgranted, hrefused⟩
  refine (returns_check_err herr₁).2 ?_
  -- The cleanup has nothing to release.
  have hclean : ∀ owned, s₁.Owns owned → Returns (stepCleanup state .zero .zero .zero none) s₁ fun r s' =>
      r = (state, decide (state.pathVec.count = 0)) ∧ s'.opens = s.opens ∧ s'.Owns owned := by
    intro owned hown
    have hown' : s₁.Owns (streamOwned none + (FwVector.zero.owned FwFile.owned + (FioPath.zero.owned +
        (FwDir.zero.owned + owned)))) :=
      hown.of_eq (by simp only [streamOwned, FwVector.zero_owned, FioPath.zero_owned, FwDir.zero_owned, zero_add])
    refine (stepCleanup_spec state none (CArray.written_null _) FioPath.zero_written FwDir.zero_written hown').mono ?_
    rintro r s' ⟨hr, -, hopens, hown''⟩
    exact ⟨hr, hopens.trans hopens₁, hown''⟩
  by_cases hgrant : s.Grants [sizeofFwFile * 16]
  · refine (hclean _ (hgranted hgrant)).mono ?_
    rintro r s' ⟨hr, hopens, hown⟩
    exact ⟨hr, hopens, fun _ => hown, fun hnot => absurd hgrant hnot⟩
  · refine (hclean _ (hrefused hgrant)).mono ?_
    rintro r s' ⟨hr, hopens, hown⟩
    exact ⟨hr, hopens, fun hyes => absurd hyes hgrant, fun _ => hown⟩

/-- Whatever becomes of a step, the state that it leaves is whole and accounted for. -/
theorem step_live {state : FwState} {pending : List CStr} {recorded : List WalkDir}
    (hlive : state.Live s pending recorded F) (herr : s.err = .ok) :
    Returns (jfsFwStateStep state) s fun r s' => s'.opens = s.opens ∧
      ∃ pending' recorded', r.1.Live s' pending' recorded' F := by
  cases hlast : pending.getLast? with
  | none =>
      rw [List.getLast?_eq_none_iff] at hlast
      subst hlast
      refine (step_done hlive).mono ?_
      rintro r s' ⟨rfl, rfl, -⟩
      exact ⟨rfl, _, _, hlive⟩
  | some path =>
      obtain ⟨rest, rfl⟩ := List.getLast?_eq_some_iff.1 hlast
      refine Returns.mono (step_attempts hlive herr) ?_
      rintro r s' ⟨hopens, ⟨-, -, ⟨stream, -, hlive'⟩, -⟩ | ⟨-, -, ⟨pending', hlive', -⟩, -⟩⟩
      · exact ⟨hopens, _, _, hlive'⟩
      · exact ⟨hopens, _, _, hlive'⟩

/-- The same with an error pending, where the step gets no memory. -/
theorem step_keeps_live {state : FwState} {pending : List CStr} {recorded : List WalkDir}
    (hlive : state.Live s pending recorded F)
    (hsafe : state.pathVec.count ≠ 0 → s.Grants [sizeofFwFile * 16] → s.err = .ok) :
    Returns (jfsFwStateStep state) s fun r s' => ∃ pending' recorded', r.1.Live s' pending' recorded' F := by
  by_cases herr : s.err = .ok
  · exact (step_live hlive herr).mono fun _ _ h => h.2
  · by_cases hnil : pending = []
    · subst hnil
      refine (step_done hlive).mono ?_
      rintro r s' ⟨rfl, rfl, -⟩
      exact ⟨_, _, hlive⟩
    · have hcount : state.pathVec.count ≠ 0 := by
        rw [hlive.paths.count]
        exact fun hzero => hnil (List.length_eq_zero_iff.1 hzero)
      refine (step_blocked hlive hnil herr).mono ?_
      rintro r s' ⟨rfl, hopens, -, hown⟩
      exact ⟨pending, recorded, hlive.toWhole, hown (mt (hsafe hcount) herr), hlive.posix.of_opens hopens⟩

end Jcl
