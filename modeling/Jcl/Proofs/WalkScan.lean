/-
Module: Jcl.Proofs.WalkScan
Layer: Proofs
Purpose: The two loops of a step of the walk, whatever the system refuses: the scan of what a directory lists, and the
  push of the directories that it found. Each succeeds if its allocations are granted; where one is not, the scan
  keeps what it has and the push loop leaves what it has pushed.
Imports: Jcl.Proofs.Ownership
Trusted boundary: none (fully proved)
Main exports: ScansInto, fwScanDir_scansInto, Pushed, PushesOnto, fwPushDirPaths_pushesOnto
-/
import Jcl.Proofs.Ownership

namespace Jcl

variable {s : Sys} {F : Multiset Resource}

/-! ### Scanning a directory -/

theorem fwFileInit_asks (herr : s.err = .ok) (hown : s.Owns F) {ent : Dirent} {type : FwType}
    (htype : fwMapDirentType ent.dType = pure type) (hlen : ent.dName.length ≤ nameMax) :
    Asks (fwFileInit .zero ent) s [ent.dName.length + 1]
      (fun file s' => (file.name.Holds file.name.str.cells ∧
        file.entry = { type := type, name := ent.dName, inode := ent.dIno }) ∧ s'.Owns (file.owned + F))
      (fun _ s' => s'.Owns F) := by
  unfold fwFileInit
  rw [htype, pure_bind]
  refine (returns_check_ok herr).2 ?_
  refine Asks.last (fioNameInit_asks herr hown .zero hlen) ?_ ?_
  · rintro name s₁ herr₁ ⟨hname, hown₁⟩
    refine Asks.pure herr₁ ⟨⟨hname.own, ?_⟩, hown₁⟩
    simp only [FwFile.entry, hname.cells]
  · rintro name s₁ herr₁ ⟨-, hown₁⟩
    exact returns_pure.2 ⟨rfl, herr₁, hown₁⟩

/-- An entry of a supported type is appended if there is memory for its name and its place. -/
theorem fwHandleDirent_asks (herr : s.err = .ok) {ent : Dirent} {type : FwType}
    (htype : fwMapDirentType ent.dType = pure type) (hlen : ent.dName.length ≤ nameMax) {vec : FwVector FwFile}
    {files : List WalkEntry} (hvec : FilesHold vec files) (hown : s.Owns (vec.owned FwFile.owned + F)) :
    Asks (fwHandleDirent ent vec) s
      ((ent.dName.length + 1) :: pushRequests sizeofFwFile vec.capacity vec.count)
      (fun vec' s' => (FilesHold vec' (files ++ [{ type := type, name := ent.dName, inode := ent.dIno }]) ∧
        vec'.capacity = pushCapacity vec.capacity vec.count) ∧ s'.Owns (vec'.owned FwFile.owned + F))
      (fun vec' s' => vec' = vec ∧ s'.Owns (vec.owned FwFile.owned + F)) := by
  unfold fwHandleDirent
  rw [← List.singleton_append]
  refine Asks.bind (fwFileInit_asks herr hown htype hlen) ?_ ?_
  · rintro file s₁ herr₁ _ ⟨⟨hname, hentry⟩, hown₁⟩
    have htransfer : jfsFwFileTransfer file = (file, .zero) := rfl
    rw [add_left_comm] at hown₁
    have hpush := fwVectorPush_asks herr₁ sizeofFwFile htransfer hvec hname hown₁
    refine Asks.last hpush ?_ ?_
    · rintro r s₂ herr₂ ⟨⟨hvec', _, hcapacity, _⟩, hown₂⟩
      rw [hentry] at hvec'
      exact Asks.pure herr₂ ⟨⟨hvec', hcapacity⟩, hown₂⟩
    · rintro r s₂ herr₂ ⟨rfl, hown₂⟩
      rw [add_left_comm] at hown₂
      refine Returns.bind_of (releases_fileFree hname.ptr.ne_uninit s₂ _ hown₂) ?_
      rintro _ s₃ ⟨hown₃, hquiet⟩
      exact returns_pure.2 ⟨hquiet.opens, hquiet.err.trans herr₂, rfl, hown₃⟩
  · intro file s₁ herr₁ hown₁
    exact returns_pure.2 ⟨rfl, herr₁, rfl, hown₁⟩

/-- An entry of an unknown type is reported. -/
theorem fwHandleDirent_unknown {ent : Dirent} (htype : ent.dType = .unknown) (vec : FwVector FwFile) :
    Returns (fwHandleDirent ent vec) s fun vec' s' => vec' = vec ∧ s' = { s with err := .fwUnknown } := by
  simp [fwHandleDirent, fwFileInit, fwMapDirentType, htype]

/-- So is one with a name that is too long. -/
theorem fwHandleDirent_tooLong (herr : s.err = .ok) {ent : Dirent} {type : FwType}
    (htype : fwMapDirentType ent.dType = pure type) (hlen : ¬ ent.dName.length ≤ nameMax) (vec : FwVector FwFile) :
    Returns (fwHandleDirent ent vec) s fun vec' s' => vec' = vec ∧ s' = { s with err := .fioNameLen } := by
  have hlong : ent.dName.length > nameMax := Nat.not_le.1 hlen
  simp [fwHandleDirent, fwFileInit, htype, herr, jfsFioNameInit, hlong]

/-- The call scans what the stream lists into `vec`, which holds `files`. It succeeds if the listing can be scanned
    and there is memory for what is kept of it. -/
def ScansInto (m : SysM (FwVector FwFile)) (s : Sys) (F : Multiset Resource) (stream : DirStream)
    (vec : FwVector FwFile) (files : List WalkEntry) : Prop :=
  let sizes := fillRequests sizeofFwFile vec.capacity vec.count ((keptEntries stream.entries).map WalkEntry.name)
  Attempts m s (Scannable stream ∧ s.Grants sizes)
    (fun vec' s' => (Spent s s' sizes.length ∧ FilesHold vec' (files ++ keptEntries stream.entries)) ∧
      s'.Owns (vec'.owned FwFile.owned + F))
    (fun vec' s' => (∃ files', FilesHold vec' files') ∧ s'.Owns (vec'.owned FwFile.owned + F))

/-- A scan that does not reach the end of the listing. -/
theorem ScansInto.stops {m : SysM (FwVector FwFile)} {stream : DirStream} {vec : FwVector FwFile}
    {files : List WalkEntry} (err : JclErr)
    (hrun : Returns m s fun vec' s' => vec' = vec ∧ s' = { s with err := err })
    (herr : err ≠ .ok) (hnot : ¬ Scannable stream) (hvec : FilesHold vec files)
    (hown : s.Owns (vec.owned FwFile.owned + F)) : ScansInto m s F stream vec files := by
  refine Returns.mono hrun ?_
  rintro _ _ ⟨rfl, rfl⟩
  exact ⟨rfl, .inr ⟨fun h => hnot h.1, herr, ⟨files, hvec⟩, hown.errors s.errno err⟩⟩

/-- An entry that is passed over. -/
theorem ScansInto.skip {m : SysM (FwVector FwFile)} {error : Option Errno} {ent : Dirent} {rest : List Dirent}
    {vec : FwVector FwFile} {files : List WalkEntry} (hknown : ent.isDots = false → ent.dType ≠ .unknown)
    (hnone : keptEntry ent = none) (h : ScansInto m s F { entries := rest, error := error } vec files) :
    ScansInto m s F { entries := ent :: rest, error := error } vec files := by
  have hkept : keptEntries (ent :: rest) = keptEntries rest := List.filterMap_cons_none hnone
  have hscannable : Scannable { entries := ent :: rest, error := error } ↔
      Scannable { entries := rest, error := error } := by
    rw [scannable_cons, hnone]
    exact ⟨fun h => h.2.2, fun h => ⟨hknown, by simp, h⟩⟩
  unfold ScansInto
  simp only [hkept, hscannable]
  exact h

/-- An entry that is kept: there is to be memory for it, and then for the rest. -/
theorem ScansInto.keep {error : Option Errno} {ent : Dirent} {rest : List Dirent} {type : FwType}
    {vec : FwVector FwFile} {files : List WalkEntry} (hdots : ent.isDots = false)
    (hmap : fwMapDirentType ent.dType = pure type) (hknown : ent.dType ≠ .unknown)
    (hlen : ent.dName.length ≤ nameMax)
    (hsome : keptEntry ent = some { type := type, name := ent.dName, inode := ent.dIno }) (herr : s.err = .ok)
    (hvec : FilesHold vec files) (hown : s.Owns (vec.owned FwFile.owned + F))
    (hrest : ∀ s₁ vec₁, s₁.err = .ok → s₁.errno = s.errno →
      FilesHold vec₁ (files ++ [{ type := type, name := ent.dName, inode := ent.dIno }]) →
      s₁.Owns (vec₁.owned FwFile.owned + F) →
      ScansInto (fwScanEntries error rest vec₁) s₁ F { entries := rest, error := error } vec₁
        (files ++ [{ type := type, name := ent.dName, inode := ent.dIno }])) :
    ScansInto (fwScanEntries error (ent :: rest) vec) s F { entries := ent :: rest, error := error } vec files := by
  have hkept : keptEntries (ent :: rest) =
      { type := type, name := ent.dName, inode := ent.dIno } :: keptEntries rest :=
    List.filterMap_cons_some hsome
  have hscannable : Scannable { entries := ent :: rest, error := error } ↔
      Scannable { entries := rest, error := error } := by
    rw [scannable_cons, hsome]
    refine ⟨fun h => h.2.2, fun h => ⟨fun _ => hknown, ?_, h⟩⟩
    rintro file ⟨⟩
    exact hlen
  unfold ScansInto
  rw [fwScanEntries_cons hdots]
  simp only [hkept, hscannable, List.map_cons, fillRequests]
  refine Returns.bind_of (fwHandleDirent_asks herr hmap hlen hvec hown) ?_
  rintro vec₁ s₁ ⟨hopens₁, ⟨hgrants, herr₁, hserved, ⟨hvec₁, hcapacity⟩, hown₁⟩ |
    ⟨hgrants, herr₁, hsys, rfl, hown₁⟩⟩
  · simp only [returns_bind, returns_getErr, herr₁, reduceCtorEq, if_false, ne_eq, not_true]
    refine (hrest s₁ vec₁ herr₁ hserved.errno hvec₁ hown₁).mono ?_
    have hcount : vec₁.count = vec.count + 1 := by
      rw [hvec₁.count, hvec.count, List.length_append, List.length_singleton]
    rw [hcapacity, hcount]
    rintro vec₂ s₂ ⟨hopens₂, ⟨⟨hends, hgrants₂⟩, herr₂, ⟨hspent, hvec₂⟩, hown₂⟩ | ⟨hnot, herr₂, hbad⟩⟩
    · rw [List.append_assoc, List.singleton_append] at hvec₂
      refine ⟨hopens₂.trans hopens₁, .inl ⟨⟨hends, hserved.grants.2 ⟨hgrants, hgrants₂⟩⟩, herr₂,
        ⟨?_, hvec₂⟩, hown₂⟩⟩
      rw [List.length_append]
      exact hserved.toSpent.trans hspent
    · refine ⟨hopens₂.trans hopens₁, .inr ⟨?_, herr₂, hbad⟩⟩
      exact fun h => hnot ⟨h.1, (hserved.grants.1 h.2).2⟩
  · simp only [returns_bind, returns_getErr, hsys, reduceCtorEq, if_false, ne_eq, not_false_eq_true, if_true,
      returns_pure]
    exact ⟨hopens₁, .inr ⟨fun h => hgrants h.2.left, trivial, ⟨files, hvec⟩, hown₁⟩⟩

/-- The induction is on the entries that are still listed; `files` are those that were kept of the others. -/
theorem fwScanEntries_scansInto {error : Option Errno} {entries : List Dirent} {vec : FwVector FwFile}
    {files : List WalkEntry} (herr : s.err = .ok) (herrno : s.errno = none) (hvec : FilesHold vec files)
    (hown : s.Owns (vec.owned FwFile.owned + F)) :
    ScansInto (fwScanEntries error entries vec) s F { entries := entries, error := error } vec files := by
  induction entries generalizing vec files s with
  | nil =>
      unfold ScansInto Attempts fwScanEntries
      simp only [returns_bind, returns_modify, returns_get, herrno, Option.or_none]
      cases error with
      | none =>
          have hscannable : Scannable { entries := [], error := none } :=
            ⟨rfl, fun ent hent => absurd hent List.not_mem_nil, fun file hfile => absurd hfile List.not_mem_nil⟩
          simp only [ne_eq, not_true, if_false, returns_pure]
          refine ⟨trivial, .inl ⟨⟨hscannable, rfl⟩, herr, ⟨⟨rfl, rfl⟩, ?_⟩, hown.errors none s.err⟩⟩
          rwa [keptEntries, List.filterMap_nil, List.append_nil]
      | some errno =>
          have hnot : ¬ Scannable { entries := [], error := some errno } := by
            rintro ⟨herror, -, -⟩
            cases herror
          simp only [ne_eq, reduceCtorEq, not_false_eq_true, if_true, returns_bind, returns_setErr, returns_pure]
          exact ⟨trivial, .inr ⟨fun h => hnot h.1, trivial, ⟨files, hvec⟩, hown.errors (some errno) .sys⟩⟩
  | cons ent rest ih =>
      -- An entry of a type that is kept: its name may still be too long.
      have hkeep : ∀ {type : FwType}, ent.isDots = false → fwMapDirentType ent.dType = pure type →
          ent.dType ≠ .unknown → keptEntry ent = some { type := type, name := ent.dName, inode := ent.dIno } →
          ScansInto (fwScanEntries error (ent :: rest) vec) s F { entries := ent :: rest, error := error } vec
            files := by
        intro type hdots hmap hknown hsome
        by_cases hlen : ent.dName.length ≤ nameMax
        · exact ScansInto.keep hdots hmap hknown hlen hsome herr hvec hown fun s₁ vec₁ herr₁ herrno₁ hvec₁ hown₁ =>
            ih herr₁ (herrno₁.trans herrno) hvec₁ hown₁
        · have hnot : ¬ Scannable { entries := ent :: rest, error := error } := by
            rw [scannable_cons, hsome]
            exact fun h => hlen (h.2.1 _ rfl)
          refine ScansInto.stops .fioNameLen ?_ (by decide) hnot hvec hown
          rw [fwScanEntries_cons hdots]
          refine Returns.bind_of (fwHandleDirent_tooLong herr hmap hlen vec) ?_
          rintro _ _ ⟨rfl, rfl⟩
          simp
      cases hdots : ent.isDots with
      | true =>
          rw [fwScanEntries, if_pos hdots]
          exact ScansInto.skip (by simp [hdots]) (by simp [keptEntry, hdots]) (ih herr herrno hvec hown)
      | false =>
          cases htype : ent.dType with
          | unknown =>
              have hnot : ¬ Scannable { entries := ent :: rest, error := error } := by
                rw [scannable_cons]
                exact fun h => h.1 hdots htype
              refine ScansInto.stops .fwUnknown ?_ (by decide) hnot hvec hown
              rw [fwScanEntries_cons hdots]
              refine Returns.bind_of (fwHandleDirent_unknown htype vec) ?_
              rintro _ _ ⟨rfl, rfl⟩
              simp
          | reg => exact hkeep hdots (by rw [htype]; rfl) (by simp [htype]) (by simp [keptEntry, hdots, htype])
          | dir => exact hkeep hdots (by rw [htype]; rfl) (by simp [htype]) (by simp [keptEntry, hdots, htype])
          | other code =>
              rw [fwScanEntries_cons hdots]
              refine Returns.bind_of (fwHandleDirent_unsupported htype vec) ?_
              rintro _ _ ⟨rfl, rfl⟩
              have hsame : { s with err := .ok } = s := by rw [← herr]
              simp only [returns_bind, returns_getErr, if_true, returns_setErr, hsame]
              exact ScansInto.skip (by simp [htype]) (by simp [keptEntry, hdots, htype]) (ih herr herrno hvec hown)

theorem fwScanDir_scansInto (herr : s.err = .ok) (dir : DirHandle) {vec : FwVector FwFile} {files : List WalkEntry}
    (hvec : FilesHold vec files) (hown : s.Owns (vec.owned FwFile.owned + F)) :
    ScansInto (fwScanDir dir vec) s F dir.stream vec files := by
  have hown' : Sys.Owns { s with errno := none } (vec.owned FwFile.owned + F) := hown.errors none s.err
  have herr' : Sys.err { s with errno := none } = .ok := herr
  refine returns_bind.2 (returns_modify.2 ((fwScanEntries_scansInto herr' rfl hvec hown').mono ?_))
  rintro vec' s' ⟨hopens, ⟨hscan, herr', ⟨hspent, hvec'⟩, hown''⟩ | hstops⟩
  · exact ⟨hopens, .inl ⟨hscan, herr', ⟨⟨hspent.allocs, hspent.allocCalls⟩, hvec'⟩, hown''⟩⟩
  · exact ⟨hopens, .inr hstops⟩

/-! ### The directories to visit -/

/-- What a loop that pushes `kids` has pushed when it ends: the first of them, if there are any and there was memory
    for the first. -/
structure Pushed (pathVec pathVec' : FwVector FioPath) (s : Sys) (kids : List CStr) (pushed : List FioPath) :
    Prop where
  cells : pathVec'.array.cells = pathVec.array.cells ++ pushed
  texts : pushed.map FioPath.text <+: kids
  first : pushed ≠ [] ↔
    kids ≠ [] ∧ s.Grants (fillRequests sizeofFioPath pathVec.capacity pathVec.count (kids.take 1))

section

variable {pathVec pathVec₁ pathVec' : FwVector FioPath} {kid : CStr} {kids : List CStr}

theorem Pushed.nil (pathVec : FwVector FioPath) (s : Sys) : Pushed pathVec pathVec s [] [] where
  cells := (List.append_nil _).symm
  texts := List.prefix_rfl
  first := ⟨fun h => absurd rfl h, fun h => absurd rfl h.1⟩

/-- The first push is refused. -/
theorem Pushed.refused
    (h : ¬ s.Grants ((kid.length + 1) :: pushRequests sizeofFioPath pathVec.capacity pathVec.count)) :
    Pushed pathVec pathVec s (kid :: kids) [] := by
  refine ⟨(List.append_nil _).symm, List.nil_prefix, ?_⟩
  simp only [List.take_succ_cons, List.take_zero, fillRequests, List.append_nil]
  exact ⟨fun hnil => absurd rfl hnil, fun hfirst => absurd hfirst.2 h⟩

/-- The first push is granted, and the loop goes on. -/
theorem Pushed.cons {s₁ : Sys} {path : FioPath} {pushed : List FioPath}
    (hrest : Pushed pathVec₁ pathVec' s₁ kids pushed)
    (hcells : pathVec₁.array.cells = pathVec.array.cells ++ [path]) (htext : path.text = kid)
    (h : s.Grants ((kid.length + 1) :: pushRequests sizeofFioPath pathVec.capacity pathVec.count)) :
    Pushed pathVec pathVec' s (kid :: kids) (path :: pushed) := by
  refine ⟨?_, ?_, ?_⟩
  · rw [hrest.cells, hcells, List.append_assoc, List.singleton_append]
  · rw [List.map_cons, htext]
    exact (List.prefix_cons_inj kid).2 hrest.texts
  · simp only [List.take_succ_cons, List.take_zero, fillRequests, List.append_nil]
    exact ⟨fun _ => ⟨List.cons_ne_nil _ _, h⟩, fun _ => List.cons_ne_nil _ _⟩

theorem Pushed.mem {pushed : List FioPath} (h : Pushed pathVec pathVec' s kids pushed) {path : FioPath}
    (hpath : path ∈ pushed) : path.text ∈ kids := h.texts.subset (List.mem_map_of_mem hpath)

end

/-- The call pushes `kids` onto `pathVec`, which holds `paths`, if there is memory for them and for their places. -/
def PushesOnto (m : SysM (FwVector FioPath)) (s : Sys) (F : Multiset Resource) (pathVec : FwVector FioPath)
    (paths kids : List CStr) : Prop :=
  Asks m s (fillRequests sizeofFioPath pathVec.capacity pathVec.count kids)
    (fun pathVec' s' => (PathsHold pathVec' (paths ++ kids) ∧ ∃ pushed, Pushed pathVec pathVec' s kids pushed) ∧
      s'.Owns (pathVec'.owned FioPath.owned + F))
    (fun pathVec' s' => ((∃ texts, PathsHold pathVec' texts) ∧ ∃ pushed, Pushed pathVec pathVec' s kids pushed) ∧
      s'.Owns (pathVec'.owned FioPath.owned + F))

/-- A directory whose composed path fits: its path is pushed, and then those of the others. -/
theorem PushesOnto.cons {dirPath : FioPath} {path kid : CStr} {file : FwFile} {rest : List FwFile}
    {pathVec : FwVector FioPath} {paths kids : List CStr} (hpath : dirPath.Holds path) (hne : path ≠ [])
    (hfile : file.name.Holds file.name.str.cells) (htype : file.type = .dir) (hname : file.name.str.cells ≠ [])
    (hslash : slash ∉ file.name.str.cells) (hkid : composePath path file.name.str.cells = kid)
    (hfits : kid.length ≤ pathMax) (herr : s.err = .ok) (hvec : PathsHold pathVec paths)
    (hown : s.Owns (pathVec.owned FioPath.owned + F)) (buf : FioPathBuf) (pushPath : FioPath)
    (hrest : ∀ s₁ buf₁ pushPath₁ pathVec₁, s₁.err = .ok → PathsHold pathVec₁ (paths ++ [kid]) →
      s₁.Owns (pathVec₁.owned FioPath.owned + F) →
      PushesOnto (fwPushPaths dirPath rest buf₁ pushPath₁ pathVec₁) s₁ F pathVec₁ (paths ++ [kid]) kids) :
    PushesOnto (fwPushPaths dirPath (file :: rest) buf pushPath pathVec) s F pathVec paths (kid :: kids) := by
  have hnormal : normalPath kid = kid := hkid ▸ normalPath_composePath hname hslash
  have hinit := fioPathInit_asks herr hown pushPath (hnormal.symm ▸ hfits)
  rw [hnormal] at hinit
  unfold fwPushPaths
  rw [if_neg (by simp [htype])]
  refine returns_bind.2 (compose_spec buf hpath hfile hne (hkid.symm ▸ hfits) ?_)
  rw [hkid]
  refine returns_bind.2 (returns_getErr.2 ?_)
  rw [if_neg (by simp [herr])]
  change Asks _ s ([kid.length + 1] ++ (pushRequests _ _ _ ++ fillRequests _ _ _ _)) _ _
  refine Asks.bind hinit.decided ?_ ?_
  · rintro newPath s₁ herr₁ hserved ⟨hgranted, hnew, hown₁⟩
    have htransfer : jfsFioPathTransfer newPath = (newPath, .zero) := rfl
    have htext : newPath.text = kid := hnew.cells
    rw [add_left_comm] at hown₁
    have hpush := fwVectorPush_asks herr₁ sizeofFioPath htransfer hvec hnew.own hown₁
    refine Asks.bind hpush.decided ?_ ?_
    · rintro ⟨pathVec₁, pushPath₁⟩ s₂ herr₂ - ⟨hgranted₂, ⟨hvec₂, hcells₂, hcapacity₂, -⟩, hown₂⟩
      have hcount₂ : pathVec₁.count = pathVec.count + 1 := by
        rw [hvec₂.count, hvec.count, List.length_append, List.length_singleton]
      have hfirst := hserved.grants.2 ⟨hgranted, hgranted₂⟩
      rw [htext] at hvec₂
      have hothers := hrest s₂ { len := kid.length, data := kid } pushPath₁ pathVec₁ herr₂ hvec₂ hown₂
      unfold PushesOnto at hothers
      rw [hcapacity₂, hcount₂, List.append_assoc] at hothers
      refine hothers.mono ?_ ?_
      · rintro pathVec' s₃ - ⟨⟨hvec₃, pushed, hpushed⟩, hown₃⟩
        exact ⟨⟨hvec₃, _, hpushed.cons hcells₂ htext hfirst⟩, hown₃⟩
      · rintro pathVec' s₃ ⟨⟨hvec₃, pushed, hpushed⟩, hown₃⟩
        exact ⟨⟨hvec₃, _, hpushed.cons hcells₂ htext hfirst⟩, hown₃⟩
    · rintro r s₂ herr₂ ⟨hrefused, rfl, hown₂⟩
      rw [add_left_comm] at hown₂
      refine Returns.bind_of (releases_pathFree hnew.ptr.ne_uninit s₂ _ hown₂) ?_
      rintro _ s₃ ⟨hown₃, hquiet⟩
      have hfirst : ¬ s.Grants ([kid.length + 1] ++ pushRequests sizeofFioPath pathVec.capacity pathVec.count) :=
        fun h => hrefused (hserved.grants.1 h).2
      exact returns_pure.2 ⟨hquiet.opens, hquiet.err.trans herr₂,
        ⟨⟨paths, hvec⟩, [], Pushed.refused hfirst⟩, hown₃⟩
  · rintro newPath s₁ herr₁ ⟨hrefused, -, hown₁⟩
    have hfirst : ¬ s.Grants ([kid.length + 1] ++ pushRequests sizeofFioPath pathVec.capacity pathVec.count) :=
      fun h => hrefused h.left
    exact returns_pure.2 ⟨rfl, herr₁, ⟨⟨paths, hvec⟩, [], Pushed.refused hfirst⟩, hown₁⟩

/-- The loop pushes the composed paths of the directories. The induction is on the files that it has not seen. -/
theorem fwPushPaths_pushesOnto {dirPath : FioPath} {path : CStr} (hpath : dirPath.Holds path) (hne : path ≠ [])
    {cells : List FwFile} (hcells : ∀ file ∈ cells, file.name.Holds file.name.str.cells)
    (hnames : ValidNames (cells.map FwFile.entry)) (buf : FioPathBuf) (pushPath : FioPath)
    {pathVec : FwVector FioPath} {paths : List CStr} (herr : s.err = .ok) (hvec : PathsHold pathVec paths)
    (hown : s.Owns (pathVec.owned FioPath.owned + F)) :
    PushesOnto (fwPushPaths dirPath cells buf pushPath pathVec) s F pathVec paths
      (subdirs path (cells.map FwFile.entry)) := by
  induction cells generalizing buf pushPath pathVec paths s with
  | nil =>
      refine Asks.pure herr ⟨⟨?_, [], Pushed.nil pathVec s⟩, hown⟩
      rwa [List.map_nil, subdirs, List.filter_nil, List.map_nil, List.filter_nil, List.append_nil]
  | cons file rest ih =>
      have hfile := hcells file (by simp)
      have hcells' : ∀ other ∈ rest, other.name.Holds other.name.str.cells := fun other hother =>
        hcells other (List.mem_cons_of_mem file hother)
      have hnames' : ValidNames (rest.map FwFile.entry) := fun other hother =>
        hnames other (List.mem_cons_of_mem _ hother)
      cases htype : file.type with
      | reg =>
          have hsame : subdirs path ((file :: rest).map FwFile.entry) = subdirs path (rest.map FwFile.entry) := by
            simp [subdirs, FwFile.entry, htype]
          rw [hsame, fwPushPaths, if_pos htype]
          exact ih hcells' hnames' buf pushPath herr hvec hown
      | dir =>
          by_cases hfits : (composePath path file.name.str.cells).length ≤ pathMax
          · have hcons : subdirs path ((file :: rest).map FwFile.entry) =
                composePath path file.name.str.cells :: subdirs path (rest.map FwFile.entry) := by
              simp [subdirs, FwFile.entry, htype, hfits]
            have hname := hnames file.entry (by simp)
            rw [hcons]
            exact PushesOnto.cons hpath hne hfile htype hname.1 hname.2 rfl hfits herr hvec hown buf pushPath
              fun s₁ buf₁ pushPath₁ pathVec₁ herr₁ hvec₁ hown₁ => ih hcells' hnames' buf₁ pushPath₁ herr₁ hvec₁ hown₁
          · have hsame : subdirs path ((file :: rest).map FwFile.entry) = subdirs path (rest.map FwFile.entry) := by
              simp [subdirs, FwFile.entry, htype, hfits]
            have hreset : { s with err := .ok } = s := by rw [← herr]
            rw [hsame, fwPushPaths, if_neg (by simp [htype])]
            refine returns_bind.2 (compose_overflow buf hpath hfile hne hfits ?_)
            simp only [returns_bind, returns_getErr, if_true, returns_setErr, hreset]
            exact ih hcells' hnames' buf pushPath herr hvec hown

theorem fwPushDirPaths_pushesOnto {dirPath : FioPath} {path : CStr} (hpath : dirPath.Holds path) (hne : path ≠ [])
    {fileVec : FwVector FwFile} {files : List WalkEntry} (hfiles : FilesHold fileVec files)
    (hnames : ValidNames files) {pathVec : FwVector FioPath} {paths : List CStr} (herr : s.err = .ok)
    (hvec : PathsHold pathVec paths) (hown : s.Owns (pathVec.owned FioPath.owned + F)) :
    PushesOnto (fwPushDirPaths pathVec fileVec dirPath) s F pathVec paths (subdirs path files) := by
  have hview := hfiles.view
  subst hview
  exact fwPushPaths_pushesOnto hpath hne hfiles.ok hnames _ _ herr hvec hown

end Jcl
