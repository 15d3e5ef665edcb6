/-
Module: Jcl.Proofs.FileWalk
Layer: Proofs
Purpose: One step of the walk where every allocation is granted. The vectors hold lists, a scan keeps what the
  listing is to give, the directories among it are pushed in the same order, and the step moves one path from
  the pending ones to the records or, where the directory may not be opened, to nowhere.
Imports: Jcl.FileWalk, Jcl.Proofs.FioPath, Jcl.Spec.DirectoryTree
Trusted boundary: none (fully proved)
Main exports: FwVector.Holds, FwDir.shown, fwScanDir_spec, fwPushDirPaths_spec, FwState.At,
  jfsFwStateCreate_spec, step_records, step_skips, jfsFwRecordInit_spec
-/
import Jcl.FileWalk
import Jcl.Proofs.FioPath
import Jcl.Spec.DirectoryTree

namespace Jcl

variable {s : Sys}

/-! ### Vectors -/

/-- The vector is allocated, its items are in order, and they stand for the list `xs`. -/
structure FwVector.Holds {α β : Type} (Ok : α → Prop) (view : α → β) (vec : FwVector α) (xs : List β) :
    Prop where
  ptr : vec.array.ptr.IsBlock
  ok : ∀ item ∈ vec.array.cells, Ok item
  view : vec.array.cells.map view = xs

section

variable {α β : Type} {Ok : α → Prop} {view : α → β} {vec : FwVector α} {xs : List β}

theorem FwVector.Holds.count (h : vec.Holds Ok view xs) : vec.count = xs.length := by
  rw [← h.view, List.length_map]
  rfl

theorem fwVectorInit_spec (h : Serving s) (size defaultCapacity : Nat) (vec : FwVector α) :
    Returns (fwVectorInit size defaultCapacity vec) s fun vec' s' => vec'.Holds Ok view [] ∧ Frame s s' := by
  unfold fwVectorInit
  refine h.call (jclMalloc_spec h _) fun ptr s₁ hptr hframe _ => ?_
  exact returns_pure.2 ⟨⟨hptr, fun item hitem => absurd hitem List.not_mem_nil, rfl⟩, hframe⟩

/-- A vector without items. -/
theorem fwVectorFree_spec (freeItem : α → SysM α) (hvec : vec.Holds Ok view []) :
    Returns (fwVectorFree freeItem vec) s fun _ s' => Frame s s' := by
  have hcells : vec.array.cells = [] := List.map_eq_nil_iff.1 hvec.view
  unfold fwVectorFree
  refine Returns.bind_of (freeArray_empty _ hvec.ptr hcells) fun _ s₁ hframe => ?_
  exact returns_pure.2 hframe

theorem fwVectorFree_zero (freeItem : α → SysM α) :
    Returns (fwVectorFree freeItem .zero) s fun _ s' => Frame s s' := by
  unfold fwVectorFree
  refine Returns.bind_of (freeArray_null _) fun _ s₁ hframe => ?_
  exact returns_pure.2 hframe

theorem FwVector.Holds.append {item : α} {capacity : Nat} {ptr : Ptr} (hvec : vec.Holds Ok view xs)
    (hitem : Ok item) (hptr : ptr.IsBlock) :
    FwVector.Holds Ok view { capacity := capacity, array := { ptr := ptr, cells := vec.array.cells ++ [item] } }
      (xs ++ [view item]) := by
  refine ⟨hptr, ?_, ?_⟩
  · intro other hother
    rcases List.mem_append.1 hother with hold | hnew
    · exact hvec.ok other hold
    · rw [List.mem_singleton.1 hnew]
      exact hitem
  · rw [List.map_append, hvec.view]
    rfl

theorem fwVectorPush_spec (h : Serving s) (size : Nat) {transfer : α → α × α} {item cleared : α}
    (htransfer : transfer item = (item, cleared)) (hvec : vec.Holds Ok view xs) (hitem : Ok item) :
    Returns (fwVectorPush size transfer vec item) s fun r s' =>
      (r.1.Holds Ok view (xs ++ [view item]) ∧ r.2 = cleared) ∧ Frame s s' := by
  unfold fwVectorPush
  simp only [htransfer, returns_ite]
  constructor
  · intro _
    refine h.call (jclRealloc_spec h hvec.ptr _) fun ptr s₁ hptr hframe _ => ?_
    exact returns_pure.2 ⟨⟨hvec.append hitem hptr, rfl⟩, hframe⟩
  · intro _
    exact returns_pure.2 ⟨⟨hvec.append hitem hvec.ptr, rfl⟩, Frame.refl s⟩

theorem fwVectorToArray_spec (h : Serving s) (size : Nat) (hvec : vec.Holds Ok view xs) (hne : xs ≠ []) :
    Returns (fwVectorToArray size vec) s fun r s' =>
      (r.1.ptr.IsBlock ∧ r.1.cells = vec.array.cells ∧ r.2 = .zero) ∧ Frame s s' := by
  have hcount : vec.count ≠ 0 := by
    rw [hvec.count]
    exact fun hzero => hne (List.length_eq_zero_iff.1 hzero)
  unfold fwVectorToArray
  simp only [hcount, if_false]
  refine h.call (jclRealloc_spec h hvec.ptr _) fun ptr s₁ hptr hframe _ => ?_
  exact returns_pure.2 ⟨⟨hptr, rfl, rfl⟩, hframe⟩

end

/-! ### What the items stand for -/

/-- The entry that a file stands for. -/
def FwFile.entry (file : FwFile) : WalkEntry :=
  { type := file.type, name := file.name.str.cells, inode := file.inode }

/-- The directory as it is recorded. -/
def FwDir.shown (dir : FwDir) : WalkDir :=
  { path := dir.path.text, files := dir.files.cells.map FwFile.entry }

/-- The vector of paths holds these paths. -/
abbrev PathsHold : FwVector FioPath → List CStr → Prop :=
  FwVector.Holds (fun path => path.Holds path.text) FioPath.text

/-- The vector of files holds these entries. -/
abbrev FilesHold : FwVector FwFile → List WalkEntry → Prop :=
  FwVector.Holds (fun file => file.name.Holds file.name.str.cells) FwFile.entry

/-- The vector of directories holds these records. -/
abbrev DirsHold : FwVector FwDir → List WalkDir → Prop := FwVector.Holds (fun _ => True) FwDir.shown

/-- The path that was pushed last is popped. -/
theorem fwPathVectorPop_spec {vec : FwVector FioPath} {paths : List CStr} {path : CStr}
    (hvec : PathsHold vec (paths ++ [path])) (pathInit : FioPath) :
    Returns (fwPathVectorPop vec pathInit) s fun r s' =>
      (PathsHold r.1 paths ∧ r.2.Holds path) ∧ Frame s s' := by
  obtain ⟨cells, lastCells, hcells, hview, hlast⟩ := List.map_eq_append_iff.1 hvec.view
  obtain ⟨last, rfl, hpath⟩ := List.map_eq_singleton_iff.1 hlast
  have hgetLast : vec.array.cells.getLast? = some last := by simp [hcells]
  have hdropLast : vec.array.cells.dropLast = cells := by simp [hcells]
  have hok : ∀ item ∈ cells ++ [last], item.Holds item.text := hcells ▸ hvec.ok
  unfold fwPathVectorPop
  simp only [hgetLast, jfsFioPathTransfer, returns_pure, hdropLast]
  refine ⟨⟨⟨hvec.ptr, fun item hitem => hok item (List.mem_append_left _ hitem), hview⟩, ?_⟩, Frame.refl s⟩
  rw [← hpath]
  exact hok last (by simp)

/-! ### Scanning a directory -/

/-- What the walk asks of a listing. -/
def ValidEntries (entries : List Dirent) : Prop :=
  ∀ ent ∈ entries, ent.isDots = false →
    ent.dName ≠ [] ∧ slash ∉ ent.dName ∧ ent.dName.length ≤ nameMax ∧ ent.dType ≠ .unknown

theorem DirectoryTree.validEntries (tree : DirectoryTree) (path : CStr) : ValidEntries (tree.entries path) := by
  intro ent hent hdots
  obtain ⟨hne, hslash, hlen⟩ := tree.names_valid path ent hent hdots
  exact ⟨hne, hslash, hlen, tree.types_known path ent hent hdots⟩

/-- An entry of a supported type is appended to the files. -/
theorem fwHandleDirent_keeps (h : Serving s) {ent : Dirent} {vec : FwVector FwFile} {files : List WalkEntry}
    {type : FwType} (htype : fwMapDirentType ent.dType = pure type) (hlen : ent.dName.length ≤ nameMax)
    (hvec : FilesHold vec files) :
    Returns (fwHandleDirent ent vec) s fun vec' s' =>
      FilesHold vec' (files ++ [{ type := type, name := ent.dName, inode := ent.dIno }]) ∧ Frame s s' := by
  have hinit : Returns (fwFileInit .zero ent) s fun file s' =>
      (file.name.Holds ent.dName ∧ file.type = type ∧ file.inode = ent.dIno) ∧ Frame s s' := by
    unfold fwFileInit
    rw [htype, pure_bind, h.check]
    refine h.call (jfsFioNameInit_spec h .zero hlen) fun name s₁ hname hframe _ => ?_
    exact returns_pure.2 ⟨⟨hname, rfl, rfl⟩, hframe⟩
  unfold fwHandleDirent
  refine h.call hinit ?_
  rintro file s₁ ⟨hname, hfileType, hinode⟩ hframe hserving
  have hentry : file.entry = { type := type, name := ent.dName, inode := ent.dIno } := by
    simp only [FwFile.entry, hfileType, hname.cells, hinode]
  have htransfer : jfsFwFileTransfer file = (file, .zero) := rfl
  have hpush := fwVectorPush_spec hserving sizeofFwFile htransfer hvec hname.own
  refine hserving.call hpush ?_
  rintro r s₂ ⟨hvec', _⟩ hframe' _
  exact returns_pure.2 ⟨hentry ▸ hvec', hframe.trans hframe'⟩

/-- An entry of another type is reported and appends nothing. -/
theorem fwHandleDirent_unsupported {ent : Dirent} {code : UInt8} (htype : ent.dType = .other code)
    (vec : FwVector FwFile) :
    Returns (fwHandleDirent ent vec) s fun vec' s' =>
      vec' = vec ∧ s' = { s with err := .fwUnsupported } := by
  simp [fwHandleDirent, fwFileInit, fwMapDirentType, htype]

/-- The round of the scan for an entry that is neither `"."` nor `".."`. -/
theorem fwScanEntries_cons {error : Option Errno} {ent : Dirent} (hdots : ent.isDots = false) (rest : List Dirent)
    (vec : FwVector FwFile) : fwScanEntries error (ent :: rest) vec = (do
      let vec ← fwHandleDirent ent vec
      let err ← getErr
      if err = .fwUnsupported then
        setErr .ok
        fwScanEntries error rest vec
      else if err ≠ .ok then
        return vec
      else
        fwScanEntries error rest vec) := by
  rw [fwScanEntries, hdots]
  rfl

/-- The scan keeps what the listing is to give, in the same order. -/
theorem fwScanEntries_spec {entries : List Dirent} (hentries : ValidEntries entries) {vec : FwVector FwFile}
    {files : List WalkEntry} (h : Serving s) (herrno : s.errno = none) (hvec : FilesHold vec files) :
    Returns (fwScanEntries none entries vec) s fun vec' s' =>
      FilesHold vec' (files ++ keptEntries entries) ∧ Frame s s' := by
  induction entries generalizing vec files s with
  | nil =>
      have hfiles : files ++ keptEntries [] = files := List.append_nil files
      simp only [fwScanEntries, returns_bind, returns_modify, returns_get, herrno, Option.or_none, ne_eq,
        not_true, if_false, returns_pure, hfiles]
      exact ⟨hvec, rfl, rfl, herrno.symm, rfl⟩
  | cons ent rest ih =>
      have hrest : ValidEntries rest := fun other hother => hentries other (List.mem_cons_of_mem ent hother)
      -- An entry that appends `kept` and leaves the system in `s₁` with no error.
      have hnext : ∀ {s₁ : Sys} {vec₁ : FwVector FwFile} {kept : List WalkEntry}, Frame s s₁ →
          FilesHold vec₁ (files ++ kept) → keptEntries (ent :: rest) = kept ++ keptEntries rest →
          Returns (fwScanEntries none rest vec₁) s₁ fun vec' s' =>
            FilesHold vec' (files ++ keptEntries (ent :: rest)) ∧ Frame s s' := by
        intro s₁ vec₁ kept hframe hvec₁ hkept
        refine (ih hrest (h.frame hframe) (hframe.errno.trans herrno) hvec₁).mono fun vec' s' hpost => ?_
        rw [hkept, ← List.append_assoc]
        exact ⟨hpost.1, hframe.trans hpost.2⟩
      have hkeeps : ∀ {type : FwType}, ent.isDots = false → fwMapDirentType ent.dType = pure type →
          keptEntry ent = some ⟨type, ent.dName, ent.dIno⟩ → ent.dName.length ≤ nameMax →
          Returns (fwScanEntries none (ent :: rest) vec) s fun vec' s' =>
            FilesHold vec' (files ++ keptEntries (ent :: rest)) ∧ Frame s s' := by
        intro type hdots hmap hkept hlen
        rw [fwScanEntries_cons hdots]
        refine Returns.bind_of (fwHandleDirent_keeps h hmap hlen hvec) ?_
        rintro vec₁ s₁ ⟨hvec₁, hframe⟩
        simp only [returns_bind, returns_getErr, (h.frame hframe).err, reduceCtorEq, if_false, ne_eq, not_true]
        exact hnext hframe hvec₁ (List.filterMap_cons_some hkept)
      cases hdots : ent.isDots with
      | true =>
          have hkept : keptEntries (ent :: rest) = [] ++ keptEntries rest :=
            List.filterMap_cons_none (by simp [keptEntry, hdots])
          rw [fwScanEntries, if_pos hdots]
          exact hnext (Frame.refl s) (by rwa [List.append_nil]) hkept
      | false =>
          obtain ⟨-, -, hlen, hknown⟩ := hentries ent (by simp) hdots
          cases htype : ent.dType with
          | unknown => exact absurd htype hknown
          | reg =>
              have hkept : keptEntry ent = some ⟨.reg, ent.dName, ent.dIno⟩ := by simp [keptEntry, hdots, htype]
              have hmap : fwMapDirentType ent.dType = pure .reg := by rw [htype]; rfl
              exact hkeeps hdots hmap hkept hlen
          | dir =>
              have hkept : keptEntry ent = some ⟨.dir, ent.dName, ent.dIno⟩ := by simp [keptEntry, hdots, htype]
              have hmap : fwMapDirentType ent.dType = pure .dir := by rw [htype]; rfl
              exact hkeeps hdots hmap hkept hlen
          | other code =>
              have hkept : keptEntries (ent :: rest) = [] ++ keptEntries rest :=
                List.filterMap_cons_none (by simp [keptEntry, hdots, htype])
              rw [fwScanEntries_cons hdots]
              refine Returns.bind_of (fwHandleDirent_unsupported htype vec) ?_
              rintro vec₁ s₁ ⟨rfl, rfl⟩
              simp only [returns_bind, returns_getErr, if_true, returns_setErr]
              exact hnext ⟨rfl, rfl, rfl, h.err.symm⟩ (by rwa [List.append_nil]) hkept

/-- The scan of a listing that ends without an error. -/
theorem fwScanDir_spec {entries : List Dirent} (hentries : ValidEntries entries) {vec : FwVector FwFile}
    (h : Serving s) (hvec : FilesHold vec []) (id : Nat) :
    Returns (fwScanDir { id := id, stream := { entries := entries, error := none } } vec) s fun vec' s' =>
      FilesHold vec' (keptEntries entries) ∧ Serving s' ∧ s'.opens = s.opens := by
  unfold fwScanDir
  simp only [returns_bind, returns_modify]
  have hserving : Serving { s with errno := none } := ⟨h.allocs, h.err⟩
  refine (fwScanEntries_spec hentries hserving rfl hvec).mono ?_
  rintro vec' s' ⟨hvec', hframe⟩
  exact ⟨hvec', hserving.frame hframe, hframe.opens⟩

/-! ### The directories to visit -/

/-- The names of these entries are names that paths are composed with. -/
def ValidNames (files : List WalkEntry) : Prop := ∀ file ∈ files, file.name ≠ [] ∧ slash ∉ file.name

theorem ValidEntries.names {entries : List Dirent} (h : ValidEntries entries) :
    ValidNames (keptEntries entries) := by
  intro file hfile
  obtain ⟨ent, hent, hkept⟩ := mem_keptEntries.1 hfile
  obtain ⟨hdots, hname, -⟩ := keptEntry_dir hkept
  obtain ⟨hne, hslash, -, -⟩ := h ent hent hdots
  rw [hname]
  exact ⟨hne, hslash⟩

/-- The loop pushes the composed paths of the directories in the same order. -/
theorem fwPushPaths_spec {dirPath : FioPath} {path : CStr} (hpath : dirPath.Holds path) (hne : path ≠ [])
    {cells : List FwFile} (hcells : ∀ file ∈ cells, file.name.Holds file.name.str.cells)
    (hnames : ValidNames (cells.map FwFile.entry)) (buf : FioPathBuf) (pushPath : FioPath)
    {pathVec : FwVector FioPath} {paths : List CStr} (h : Serving s) (hvec : PathsHold pathVec paths) :
    Returns (fwPushPaths dirPath cells buf pushPath pathVec) s fun pathVec' s' =>
      PathsHold pathVec' (paths ++ subdirs path (cells.map FwFile.entry)) ∧ Frame s s' := by
  induction cells generalizing buf pushPath pathVec paths s with
  | nil =>
      have hpaths : paths ++ subdirs path ([].map FwFile.entry) = paths := List.append_nil paths
      simp only [fwPushPaths, returns_pure, hpaths]
      exact ⟨hvec, Frame.refl s⟩
  | cons file rest ih =>
      have hfile := hcells file (by simp)
      have hcells' : ∀ other ∈ rest, other.name.Holds other.name.str.cells := fun other hother =>
        hcells other (List.mem_cons_of_mem file hother)
      have hnames' : ValidNames (rest.map FwFile.entry) := fun other hother =>
        hnames other (List.mem_cons_of_mem _ hother)
      -- A file that pushes `pushed` and leaves the system in `s₁` with no error.
      have hnext : ∀ {s₁ : Sys} {vec₁ : FwVector FioPath} {pushed : List CStr} (buf : FioPathBuf)
          (pushPath : FioPath), Frame s s₁ → PathsHold vec₁ (paths ++ pushed) →
          subdirs path ((file :: rest).map FwFile.entry) = pushed ++ subdirs path (rest.map FwFile.entry) →
          Returns (fwPushPaths dirPath rest buf pushPath vec₁) s₁ fun pathVec' s' =>
            PathsHold pathVec' (paths ++ subdirs path ((file :: rest).map FwFile.entry)) ∧ Frame s s' := by
        intro s₁ vec₁ pushed buf pushPath hframe hvec₁ hpushed
        refine (ih hcells' hnames' buf pushPath (h.frame hframe) hvec₁).mono fun vec' s' hpost => ?_
        rw [hpushed, ← List.append_assoc]
        exact ⟨hpost.1, hframe.trans hpost.2⟩
      unfold fwPushPaths
      cases htype : file.type with
      | reg =>
          have hpushed : subdirs path ((file :: rest).map FwFile.entry) =
              [] ++ subdirs path (rest.map FwFile.entry) := by
            simp [subdirs, FwFile.entry, htype]
          simp only [if_true]
          exact hnext buf pushPath (Frame.refl s) (by rwa [List.append_nil]) hpushed
      | dir =>
          simp only [reduceCtorEq, if_false]
          by_cases hfits : (composePath path file.name.str.cells).length ≤ pathMax
          · have hpushed : subdirs path ((file :: rest).map FwFile.entry) =
                [composePath path file.name.str.cells] ++ subdirs path (rest.map FwFile.entry) := by
              simp [subdirs, FwFile.entry, htype, hfits]
            have hname := hnames file.entry (by simp)
            have hnormal : normalPath (composePath path file.name.str.cells) =
                composePath path file.name.str.cells := normalPath_composePath hname.1 hname.2
            have hinit := jfsFioPathInit_spec h pushPath (hnormal.symm ▸ hfits)
            refine returns_bind.2 (compose_spec buf hpath hfile hne hfits ?_)
            refine returns_bind.2 (returns_getErr.2 ?_)
            simp only [h.err, reduceCtorEq, if_false]
            refine h.call hinit fun newPath s₁ hnew hframe hserving => ?_
            have htext : newPath.text = composePath path file.name.str.cells := hnew.cells.trans hnormal
            have hpush := fwVectorPush_spec hserving sizeofFioPath (rfl : jfsFioPathTransfer newPath = _) hvec
              hnew.own
            refine hserving.call hpush ?_
            rintro r s₂ ⟨hvec', _⟩ hframe' _
            exact hnext _ _ (hframe.trans hframe') (htext ▸ hvec') hpushed
          · have hpushed : subdirs path ((file :: rest).map FwFile.entry) =
                [] ++ subdirs path (rest.map FwFile.entry) := by
              simp [subdirs, FwFile.entry, htype, hfits]
            refine returns_bind.2 (compose_overflow buf hpath hfile hne hfits ?_)
            simp only [returns_bind, returns_getErr, if_true, returns_setErr]
            exact hnext buf pushPath ⟨rfl, rfl, rfl, h.err.symm⟩ (by rwa [List.append_nil]) hpushed

theorem fwPushDirPaths_spec {dirPath : FioPath} {path : CStr} (hpath : dirPath.Holds path) (hne : path ≠ [])
    {fileVec : FwVector FwFile} {files : List WalkEntry} (hfiles : FilesHold fileVec files)
    (hnames : ValidNames files) {pathVec : FwVector FioPath} {paths : List CStr} (h : Serving s)
    (hvec : PathsHold pathVec paths) :
    Returns (fwPushDirPaths pathVec fileVec dirPath) s fun pathVec' s' =>
      PathsHold pathVec' (paths ++ subdirs path files) ∧ Frame s s' := by
  rw [← hfiles.view] at hnames ⊢
  exact fwPushPaths_spec hpath hne hfiles.ok hnames _ _ h hvec

/-- The directory is recorded with its path and the files of the vector. -/
theorem fwDirInit_spec {dirPath : FioPath} {path : CStr} (hpath : dirPath.Holds path)
    {fileVec : FwVector FwFile} {files : List WalkEntry} (hfiles : FilesHold fileVec files) (h : Serving s)
    (dir : FwDir) :
    Returns (fwDirInit dir fileVec dirPath) s fun r s' =>
      r.1.shown = { path := path, files := files } ∧ Frame s s' := by
  have htext : dirPath.text = path := hpath.cells
  unfold fwDirInit
  simp only [jfsFioPathTransfer, returns_ite]
  constructor
  · intro hcount
    have hne : files ≠ [] := by
      rw [hfiles.count] at hcount
      exact List.length_pos_iff.1 hcount
    refine h.call (fwVectorToArray_spec h sizeofFwFile hfiles hne) ?_
    rintro r s₁ ⟨_, hcells, _⟩ hframe _
    simp only [returns_pure, FwDir.shown, htext, hcells, hfiles.view]
    exact ⟨trivial, hframe⟩
  · intro hcount
    have hnil : files = [] := by
      rw [hfiles.count] at hcount
      exact List.length_eq_zero_iff.1 (Nat.eq_zero_of_not_pos hcount)
    subst hnil
    refine returns_bind.2 ((fwVectorFree_spec jfsFwFileFree hfiles).mono fun r s₁ hframe => ?_)
    simp only [returns_pure, FwDir.shown, htext, CArray.null, List.map_nil]
    exact ⟨trivial, hframe⟩

theorem jfsFwDirFree_zero : Returns (jfsFwDirFree .zero) s fun _ s' => Frame s s' := by
  unfold jfsFwDirFree
  refine returns_bind.2 ((freeArray_null _).mono fun _ s₁ hframe₁ => ?_)
  have hpathFree : Returns (jfsFioPathFree .zero) s₁ fun _ s' => Frame s₁ s' :=
    jfsFioPathFree_spec (nofun : Ptr.null ≠ .uninit)
  refine returns_bind.2 (hpathFree.mono fun _ s₂ hframe₂ => ?_)
  exact returns_pure.2 (hframe₁.trans hframe₂)

/-! ### The walk -/

/-- The walk has these paths pending, the one to visit next last, and these directories recorded. -/
structure FwState.At (state : FwState) (pending : List CStr) (recorded : List WalkDir) : Prop where
  self : state.self.IsBlock
  paths : PathsHold state.pathVec pending
  dirs : DirsHold state.dirVec recorded

/-- A walk starts with the path it is given, without a `'/'` at its end. -/
theorem jfsFwStateCreate_spec {startPath : FioPath} {start : CStr} (hstart : startPath.Holds start)
    (hlen : (normalPath start).length ≤ pathMax) (h : Serving s) :
    Returns (jfsFwStateCreate startPath) s fun created s' =>
      (∃ state, created = some state ∧ state.At [normalPath start] []) ∧ Frame s s' := by
  unfold jfsFwStateCreate
  refine h.call (jclMalloc_spec h _) fun self s₁ hself hframe₁ h₁ => ?_
  have hpathInit : Returns (fwPathVectorInit .uninit) s₁ fun vec s' => PathsHold vec [] ∧ Frame s₁ s' :=
    fwVectorInit_spec h₁ _ _ _
  refine h₁.call hpathInit fun pathVec s₂ hpathVec hframe₂ h₂ => ?_
  have hdirInit : Returns (fwDirVectorInit .uninit) s₂ fun vec s' => DirsHold vec [] ∧ Frame s₂ s' :=
    fwVectorInit_spec h₂ _ _ _
  refine h₂.call hdirInit fun dirVec s₃ hdirVec hframe₃ h₃ => ?_
  refine returns_bind.2 ((CArray.read_spec hstart.ptr).2 ?_)
  rw [hstart.cells]
  refine h₃.call (jfsFioPathInit_spec h₃ .zero hlen) fun newPath s₄ hnew hframe₄ h₄ => ?_
  have hpush := fwVectorPush_spec h₄ sizeofFioPath (rfl : jfsFioPathTransfer newPath = _) hpathVec
    hnew.own
  refine h₄.call hpush ?_
  rintro r s₅ ⟨hvec, _⟩ hframe₅ _
  have htext : newPath.text = normalPath start := hnew.cells
  refine returns_pure.2 ⟨⟨_, rfl, hself, ?_, hdirVec⟩,
    (((hframe₁.trans hframe₂).trans hframe₃).trans hframe₄).trans hframe₅⟩
  rw [htext] at hvec
  exact hvec

/-- A step takes the last pending path, and visits the directory there. -/
theorem step_of_visit {state : FwState} {pending : List CStr} {recorded : List WalkDir} {path : CStr}
    {Q : FwState × Bool → Sys → Prop} (hstate : state.At (pending ++ [path]) recorded) (h : Serving s)
    (hvisit : ∀ state' fileVec dirPath s', state'.At pending recorded → FilesHold fileVec [] →
      dirPath.Holds path → Frame s s' → Returns (stepVisit state' fileVec dirPath) s' Q) :
    Returns (jfsFwStateStep state) s Q := by
  have hcount : state.pathVec.count ≠ 0 := by
    rw [hstate.paths.count, List.length_append]
    exact Nat.succ_ne_zero _
  unfold jfsFwStateStep
  simp only [hcount, if_false]
  have hfileInit : Returns (fwFileVectorInit .zero) s fun vec s' => FilesHold vec [] ∧ Frame s s' :=
    fwVectorInit_spec h _ _ _
  refine h.call hfileInit fun fileVec s₁ hfileVec hframe₁ h₁ => ?_
  refine h₁.call (fwPathVectorPop_spec hstate.paths .zero) ?_
  rintro r s₂ ⟨hpathVec, hdirPath⟩ hframe₂ _
  exact hvisit _ _ _ _ ⟨hstate.self, hpathVec, hstate.dirs⟩ hfileVec hdirPath (hframe₁.trans hframe₂)

/-- The directory at the last pending path can be opened: it is recorded, and its directories are pending in its
    place. -/
theorem step_records {state : FwState} {pending : List CStr} {recorded : List WalkDir} {path : CStr}
    {entries : List Dirent} (hstate : state.At (pending ++ [path]) recorded) (h : Serving s) (hne : path ≠ [])
    (hopens : ∀ id, s.opens id path = .ok { entries := entries, error := none })
    (hentries : ValidEntries entries) :
    Returns (jfsFwStateStep state) s fun r s' =>
      r.1.At (pending ++ subdirs path (keptEntries entries))
        (recorded ++ [{ path := path, files := keptEntries entries }]) ∧
      Serving s' ∧ s'.opens = s.opens := by
  refine step_of_visit hstate h fun state₁ fileVec dirPath s₁ hstate₁ hfileVec hdirPath hframe₁ => ?_
  have h₁ := h.frame hframe₁
  have hopens₁ : s₁.opens s₁.openCalls path = .ok { entries := entries, error := none } := by
    rw [hframe₁.opens]
    exact hopens _
  unfold stepVisit
  refine returns_bind.2 ((CArray.read_spec hdirPath.ptr).2 ?_)
  rw [hdirPath.cells]
  refine h₁.call (jclOpendir_opens hopens₁) ?_
  rintro sysDir s₂ ⟨id, hsysDir⟩ hframe₂ h₂
  subst hsysDir
  refine returns_bind.2 (returns_pure.2 ?_)
  refine returns_bind.2 ((fwScanDir_spec hentries h₂ hfileVec id).mono ?_)
  rintro fileVec' s₃ ⟨hfiles, h₃, hopens₃⟩
  apply h₃.check.2
  refine h₃.call (fwPushDirPaths_spec hdirPath hne hfiles hentries.names h₃ hstate₁.paths)
    fun pathVec s₄ hpathVec hframe₄ h₄ => ?_
  refine h₄.call (fwDirInit_spec hdirPath hfiles h₄ .zero) fun r s₅ hshown hframe₅ h₅ => ?_
  have hpush : Returns (fwDirVectorPush state₁.dirVec r.1) s₅ fun pushed s' =>
      (DirsHold pushed.1 (recorded ++ [r.1.shown]) ∧ pushed.2 = .zero) ∧ Frame s₅ s' :=
    fwVectorPush_spec h₅ _ rfl hstate₁.dirs trivial
  refine h₅.call hpush ?_
  rintro pushed s₆ ⟨hdirVec, _⟩ hframe₆ h₆
  refine returns_bind.2 ((closedir_spec _).mono fun _ s₇ hframe₇ => ?_)
  refine returns_pure.2 ⟨⟨hstate₁.self, hpathVec, hshown ▸ hdirVec⟩, h₆.frame hframe₇, ?_⟩
  rw [(((hframe₄.trans hframe₅).trans hframe₆).trans hframe₇).opens, hopens₃, hframe₂.opens, hframe₁.opens]

/-- The directory at the last pending path may not be opened: it is skipped. -/
theorem step_skips {state : FwState} {pending : List CStr} {recorded : List WalkDir} {path : CStr}
    (hstate : state.At (pending ++ [path]) recorded) (h : Serving s)
    (hopens : ∀ id, s.opens id path = .error .eacces) :
    Returns (jfsFwStateStep state) s fun r s' =>
      r.1.At pending recorded ∧ s'.err = .fwSkip ∧ s'.allocs = s.allocs ∧ s'.opens = s.opens := by
  refine step_of_visit hstate h fun state₁ fileVec dirPath s₁ hstate₁ hfileVec hdirPath hframe₁ => ?_
  have hopens₁ : s₁.opens s₁.openCalls path = .error .eacces := by
    rw [hframe₁.opens]
    exact hopens _
  unfold stepVisit
  simp only [returns_bind, CArray.read_spec hdirPath.ptr, hdirPath.cells]
  refine (jclOpendir_fails hopens₁).mono ?_
  rintro sysDir s₂ ⟨hsysDir, herr, hallocs, hopens₂⟩
  subst hsysDir
  have hfailed : (s₂.err != JclErr.ok) = true := by
    rw [herr]
    rfl
  have hnotUninit : dirPath.str.ptr ≠ .uninit := by
    obtain ⟨id, hid⟩ := hdirPath.ptr
    simp [hid]
  simp only [returns_failed, hfailed, if_true, stepCleanup, returns_bind, returns_pure]
  refine (fwVectorFree_spec jfsFwFileFree hfileVec).mono fun _ s₃ hframe₃ => ?_
  refine (jfsFioPathFree_spec hnotUninit).mono fun _ s₄ hframe₄ => ?_
  refine jfsFwDirFree_zero.mono fun _ s₅ hframe₅ => ?_
  have hframe := (hframe₃.trans hframe₄).trans hframe₅
  have herr₅ : s₅.err = .access := hframe.err.trans herr
  simp only [returns_remapErr, herr₅, if_true, reduceCtorEq, if_false]
  exact ⟨hstate₁, trivial, (hframe.allocs.trans hallocs).trans hframe₁.allocs,
    (hframe.opens.trans hopens₂).trans hframe₁.opens⟩

/-- The records of a finished walk are handed over as they are. -/
theorem jfsFwRecordInit_spec {state : FwState} {recorded : List WalkDir} (hstate : state.At [] recorded)
    (hne : recorded ≠ []) (h : Serving s) (record : FwRecord) :
    Returns (jfsFwRecordInit record state) s fun r s' =>
      r.1.dirArray.cells = state.dirVec.array.cells ∧ r.2 = none ∧ s'.err = .ok := by
  have hcount : ¬ state.pathVec.count > 0 := by
    rw [hstate.paths.count]
    exact Nat.lt_irrefl 0
  unfold jfsFwRecordInit
  simp only [hcount, if_false]
  refine h.call (fwVectorToArray_spec h sizeofFwDir hstate.dirs hne) ?_
  rintro r s₁ ⟨_, hcells, hzero⟩ hframe _
  simp only [jfsFwStateDestroy, hzero, returns_bind]
  refine (fwVectorFree_spec jfsFioPathFree hstate.paths).mono fun _ s₂ hframe₂ => ?_
  refine (fwVectorFree_zero jfsFwDirFree).mono fun _ s₃ hframe₃ => ?_
  obtain ⟨id, hself⟩ := hstate.self
  have hfree : Returns (free state.self) s₃ fun _ s' => Frame s₃ s' := free_spec (by simp [hself])
  refine hfree.mono fun _ s₄ hframe₄ => ?_
  have hfinal := ((hframe.trans hframe₂).trans hframe₃).trans hframe₄
  exact returns_pure.2 ⟨hcells, rfl, hfinal.err.trans h.err⟩

end Jcl
