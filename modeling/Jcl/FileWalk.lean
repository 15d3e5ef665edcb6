/-
Module: Jcl.FileWalk
Layer: Model
Purpose: `file_walk.c`: the walk over a directory tree that keeps the paths of the directories to visit in one
  growing array and the directories that were recorded in another. The functions for the three vectors are one
  definition each, applied to the element size and to what an element owns.
Imports: Jcl.FioPath
Trusted boundary: human-reviewed spec. The `count` of a vector is the number of cells of its array that were
  written, and `file_count` and `dir_count` are those of the arrays beside them; sizes are unbounded.
Main exports: FwType, FwFile, FwDir, FwVector, FwState, FwRecord, jfsFwStateCreate, jfsFwStateDestroy,
  jfsFwStateStep, jfsFwRecordInit, jfsFwRecordFree
-/
import Jcl.FioPath

namespace Jcl

/-- `jfs_fw_types_t`. -/
inductive FwType where
  | reg
  | dir
deriving DecidableEq, Repr

/-- `jfs_fw_file_t`. -/
structure FwFile where
  type : FwType
  name : FioName
  inode : Nat

/-- A file overwritten with zeros. -/
def FwFile.zero : FwFile := { type := .reg, name := .zero, inode := 0 }

/-- `jfs_fw_dir_t`. -/
structure FwDir where
  path : FioPath
  files : CArray FwFile

/-- A directory overwritten with zeros. -/
def FwDir.zero : FwDir := { path := .zero, files := .null }

/-- `fw_path_vector_t`, `fw_file_vector_t` and `fw_dir_vector_t`. -/
structure FwVector (α : Type) where
  capacity : Nat
  array : CArray α

/-- The `count` field of a vector. -/
def FwVector.count {α : Type} (vec : FwVector α) : Nat := vec.array.cells.length

/-- A vector overwritten with zeros. -/
def FwVector.zero {α : Type} : FwVector α := { capacity := 0, array := .null }

/-- A vector in memory that was not written since it was allocated. -/
def FwVector.uninit {α : Type} : FwVector α := { capacity := 0, array := { ptr := .uninit, cells := [] } }

/-- `jfs_fw_state_t` in the block `self`. -/
structure FwState where
  self : Ptr
  pathVec : FwVector FioPath
  dirVec : FwVector FwDir

/-- `jfs_fw_record_t`. -/
structure FwRecord where
  dirArray : CArray FwDir

/-- A record overwritten with zeros. -/
def FwRecord.zero : FwRecord := { dirArray := .null }

/-! ### Files and directories -/

/-- `jfs_fw_file_free`. -/
def jfsFwFileFree (fileFree : FwFile) : SysM FwFile := do
  let _ ← jfsFioNameFree fileFree.name
  return .zero

/-- `jfs_fw_file_transfer`: both files as it leaves them. -/
def jfsFwFileTransfer (fileFree : FwFile) : FwFile × FwFile := (fileFree, .zero)

/-- `jfs_fw_dir_free`. -/
def jfsFwDirFree (dirFree : FwDir) : SysM FwDir := do
  freeArray (fun file => do let _ ← jfsFwFileFree file) dirFree.files
  let _ ← jfsFioPathFree dirFree.path
  return .zero

/-- `jfs_fw_dir_transfer`: both directories as it leaves them. -/
def jfsFwDirTransfer (dirFree : FwDir) : FwDir × FwDir := (dirFree, .zero)

/-! ### Vectors -/

/-- `fw_path_vector_init`, `fw_file_vector_init` and `fw_dir_vector_init`. -/
def fwVectorInit {α : Type} (size defaultCapacity : Nat) (vecInit : FwVector α) : SysM (FwVector α) := do
  let newArray ← jclMalloc (size * defaultCapacity)
  if ← failed then return vecInit
  return { capacity := defaultCapacity, array := { ptr := newArray, cells := [] } }

/-- `fw_path_vector_free`, `fw_file_vector_free` and `fw_dir_vector_free`. -/
def fwVectorFree {α : Type} (freeItem : α → SysM α) (vecFree : FwVector α) : SysM (FwVector α) := do
  freeArray (fun item => do let _ ← freeItem item) vecFree.array
  return .zero

/-- `fw_path_vector_push`, `fw_file_vector_push` and `fw_dir_vector_push`: the vector and the pushed item as they
    are left. -/
def fwVectorPush {α : Type} (size : Nat) (transfer : α → α × α) (vec : FwVector α) (itemFree : α) :
    SysM (FwVector α × α) := do
  let (item, cleared) := transfer itemFree
  if vec.count ≥ vec.capacity then
    let newCapacity := vec.capacity * 2
    let newArray ← jclRealloc vec.array.ptr (size * newCapacity)
    if ← failed then return (vec, itemFree)
    return ({ capacity := newCapacity, array := { ptr := newArray, cells := vec.array.cells ++ [item] } },
      cleared)
  else
    return ({ vec with array := { vec.array with cells := vec.array.cells ++ [item] } }, cleared)

/-- `fw_file_vector_to_array` and `fw_dir_vector_to_array`: the array and the vector as it is left. -/
def fwVectorToArray {α : Type} (size : Nat) (vecFree : FwVector α) : SysM (CArray α × FwVector α) := do
  if vecFree.count = 0 then
    setErr .empty
    return (.null, vecFree)
  let newArray ← jclRealloc vecFree.array.ptr (size * vecFree.count)
  if ← failed then return (.null, vecFree)
  return ({ ptr := newArray, cells := vecFree.array.cells }, .zero)

/-- `sizeof(jfs_fio_path_t)`. -/
def sizeofFioPath : Nat := 16

/-- `sizeof(jfs_fw_file_t)`. -/
def sizeofFwFile : Nat := 32

/-- `sizeof(jfs_fw_dir_t)`. -/
def sizeofFwDir : Nat := 32

/-- `sizeof(jfs_fw_state_t)`. -/
def sizeofFwState : Nat := 48

/-- `fw_path_vector_init`. -/
def fwPathVectorInit : FwVector FioPath → SysM (FwVector FioPath) := fwVectorInit sizeofFioPath 16

/-- `fw_path_vector_free`. -/
def fwPathVectorFree : FwVector FioPath → SysM (FwVector FioPath) := fwVectorFree jfsFioPathFree

/-- `fw_path_vector_push`. -/
def fwPathVectorPush : FwVector FioPath → FioPath → SysM (FwVector FioPath × FioPath) :=
  fwVectorPush sizeofFioPath jfsFioPathTransfer

/-- `fw_path_vector_pop`: the vector as it is left and the path that was popped. -/
def fwPathVectorPop (vec : FwVector FioPath) (pathInit : FioPath) : SysM (FwVector FioPath × FioPath) := do
  match vec.array.cells.getLast? with
  | none =>
      setErr .empty
      return (vec, pathInit)
  | some path =>
      let (path, _) := jfsFioPathTransfer path
      return ({ vec with array := { vec.array with cells := vec.array.cells.dropLast } }, path)

/-- `fw_file_vector_init`. -/
def fwFileVectorInit : FwVector FwFile → SysM (FwVector FwFile) := fwVectorInit sizeofFwFile 16

/-- `fw_file_vector_free`. -/
def fwFileVectorFree : FwVector FwFile → SysM (FwVector FwFile) := fwVectorFree jfsFwFileFree

/-- `fw_file_vector_push`. -/
def fwFileVectorPush : FwVector FwFile → FwFile → SysM (FwVector FwFile × FwFile) :=
  fwVectorPush sizeofFwFile jfsFwFileTransfer

/-- `fw_file_vector_to_array`. -/
def fwFileVectorToArray : FwVector FwFile → SysM (CArray FwFile × FwVector FwFile) :=
  fwVectorToArray sizeofFwFile

/-- `fw_dir_vector_init`. -/
def fwDirVectorInit : FwVector FwDir → SysM (FwVector FwDir) := fwVectorInit sizeofFwDir 16

/-- `fw_dir_vector_free`. -/
def fwDirVectorFree : FwVector FwDir → SysM (FwVector FwDir) := fwVectorFree jfsFwDirFree

/-- `fw_dir_vector_push`. -/
def fwDirVectorPush : FwVector FwDir → FwDir → SysM (FwVector FwDir × FwDir) :=
  fwVectorPush sizeofFwDir jfsFwDirTransfer

/-- `fw_dir_vector_to_array`. -/
def fwDirVectorToArray : FwVector FwDir → SysM (CArray FwDir × FwVector FwDir) :=
  fwVectorToArray sizeofFwDir

/-! ### One directory -/

/-- `fw_map_dirent_type`. -/
def fwMapDirentType (entType : DirentType) : SysM FwType := do
  match entType with
  | .reg => return .reg
  | .dir => return .dir
  | .unknown =>
      setErr .fwUnknown
      return .reg
  | .other _ =>
      setErr .fwUnsupported
      return .reg

/-- `fw_file_init`. -/
def fwFileInit (fileInit : FwFile) (ent : Dirent) : SysM FwFile := do
  let newType ← fwMapDirentType ent.dType
  if ← failed then return fileInit
  let newName ← jfsFioNameInit .zero ent.dName
  if ← failed then return fileInit
  let (name, _) := jfsFioNameTransfer newName
  return { type := newType, name := name, inode := ent.dIno }

/-- `fw_handle_dirent`. -/
def fwHandleDirent (ent : Dirent) (vec : FwVector FwFile) : SysM (FwVector FwFile) := do
  let file ← fwFileInit .zero ent
  if ← failed then return vec
  let (vec, file) ← fwFileVectorPush vec file
  if ← failed then
    let _ ← jfsFwFileFree file
    return vec
  return vec

/-- The names `"."` and `".."`. -/
def Dirent.isDots (ent : Dirent) : Bool := ent.dName == [46] || ent.dName == [46, 46]

/-- The loop of `fw_scan_dir`, over the entries that `readdir` still returns. -/
def fwScanEntries (error : Option Errno) : List Dirent → FwVector FwFile → SysM (FwVector FwFile)
  | [], vec => do
      modify fun s => { s with errno := error.or s.errno }
      if (← get).errno ≠ none then setErr .sys
      return vec
  | ent :: rest, vec => do
      if ent.isDots then
        fwScanEntries error rest vec
      else
        let vec ← fwHandleDirent ent vec
        let err ← getErr
        if err = .fwUnsupported then
          setErr .ok
          fwScanEntries error rest vec
        else if err ≠ .ok then
          return vec
        else
          fwScanEntries error rest vec

/-- `fw_scan_dir`. -/
def fwScanDir (dir : DirHandle) (vec : FwVector FwFile) : SysM (FwVector FwFile) := do
  modify fun s => { s with errno := none }
  fwScanEntries dir.stream.error dir.stream.entries vec

/-- The loop of `fw_push_dir_paths`, with its two locals. -/
def fwPushPaths (dirPath : FioPath) :
    List FwFile → FioPathBuf → FioPath → FwVector FioPath → SysM (FwVector FioPath)
  | [], _, _, pathVec => return pathVec
  | file :: rest, buf, pushPath, pathVec => do
      if file.type = .reg then
        fwPushPaths dirPath rest buf pushPath pathVec
      else
        let buf ← jfsFioPathBufCompose buf dirPath file.name
        if (← getErr) = .fioPathOverflow then
          setErr .ok
          fwPushPaths dirPath rest buf pushPath pathVec
        else
          let pushPath ← jfsFioPathInit pushPath buf.data
          if ← failed then return pathVec
          let (pathVec, pushPath) ← fwPathVectorPush pathVec pushPath
          if ← failed then
            let _ ← jfsFioPathFree pushPath
            return pathVec
          fwPushPaths dirPath rest buf pushPath pathVec

/-- `fw_push_dir_paths`. -/
def fwPushDirPaths (pathVec : FwVector FioPath) (fileVec : FwVector FwFile) (dirPath : FioPath) :
    SysM (FwVector FioPath) :=
  fwPushPaths dirPath fileVec.array.cells .zero .zero pathVec

/-- `fw_dir_init`: the directory, the vector and the path as they are left. -/
def fwDirInit (dirInit : FwDir) (vecFree : FwVector FwFile) (pathFree : FioPath) :
    SysM (FwDir × FwVector FwFile × FioPath) := do
  let (path, cleared) := jfsFioPathTransfer pathFree
  if vecFree.count > 0 then
    let (newFiles, vecFree) ← fwFileVectorToArray vecFree
    if ← failed then return (dirInit, vecFree, pathFree)
    return ({ path := path, files := newFiles }, vecFree, cleared)
  else
    let vecFree ← fwFileVectorFree vecFree
    return ({ path := path, files := .null }, vecFree, cleared)

/-! ### The walk -/

/-- The `cleanup` label of `jfs_fw_state_create`. -/
def createCleanup (state : Option FwState) (newPath : FioPath) : SysM (Option FwState) := do
  match state with
  | none => pure ()
  | some state =>
      let _ ← fwDirVectorFree state.dirVec
      let _ ← fwPathVectorFree state.pathVec
      free state.self
  let _ ← jfsFioPathFree newPath
  return none

/-- `jfs_fw_state_create`. -/
def jfsFwStateCreate (startPath : FioPath) : SysM (Option FwState) := do
  let self ← jclMalloc sizeofFwState
  let state : FwState := { self := self, pathVec := .uninit, dirVec := .uninit }
  if ← failed then return ← createCleanup (if self = .null then none else some state) .zero
  let pathVec ← fwPathVectorInit state.pathVec
  let state := { state with pathVec := pathVec }
  if ← failed then return ← createCleanup (some state) .zero
  let dirVec ← fwDirVectorInit state.dirVec
  let state := { state with dirVec := dirVec }
  if ← failed then return ← createCleanup (some state) .zero
  let startStr ← startPath.str.read
  let newPath ← jfsFioPathInit .zero startStr
  if ← failed then return ← createCleanup (some state) newPath
  let (pathVec, newPath) ← fwPathVectorPush state.pathVec newPath
  let state := { state with pathVec := pathVec }
  if ← failed then return ← createCleanup (some state) newPath
  return some state

/-- `jfs_fw_state_destroy`. -/
def jfsFwStateDestroy (stateMove : Option FwState) : SysM Unit := do
  match stateMove with
  | none => return
  | some state =>
      let _ ← fwPathVectorFree state.pathVec
      let _ ← fwDirVectorFree state.dirVec
      free state.self

/-- The `cleanup` label of `jfs_fw_state_step`. -/
def stepCleanup (state : FwState) (fileVec : FwVector FwFile) (dirPath : FioPath) (dir : FwDir)
    (sysDir : Option DirHandle) : SysM (FwState × Bool) := do
  match sysDir with
  | none => pure ()
  | some sysDir => closedir sysDir
  let _ ← fwFileVectorFree fileVec
  let _ ← jfsFioPathFree dirPath
  let _ ← jfsFwDirFree dir
  remapErr .access .fwSkip
  remapErr .invalPath .fwFail
  return (state, decide (state.pathVec.count = 0))

/-- The `DIR *` that `opendir` returned, dereferenced. -/
def DirHandle.deref : Option DirHandle → SysM DirHandle
  | none => throw .nullDeref
  | some dir => return dir

/-- `jfs_fw_state_step` from `jfs_opendir` on. -/
def stepVisit (state : FwState) (fileVec : FwVector FwFile) (dirPath : FioPath) : SysM (FwState × Bool) := do
  let dirPathStr ← dirPath.str.read
  let sysDir ← jclOpendir dirPathStr
  if ← failed then return ← stepCleanup state fileVec dirPath .zero sysDir
  let opened ← DirHandle.deref sysDir
  let fileVec ← fwScanDir opened fileVec
  if ← failed then return ← stepCleanup state fileVec dirPath .zero sysDir
  let pathVec ← fwPushDirPaths state.pathVec fileVec dirPath
  let state := { state with pathVec := pathVec }
  if ← failed then return ← stepCleanup state fileVec dirPath .zero sysDir
  let (dir, fileVec, dirPath) ← fwDirInit .zero fileVec dirPath
  if ← failed then return ← stepCleanup state fileVec dirPath dir sysDir
  let (dirVec, dir) ← fwDirVectorPush state.dirVec dir
  let state := { state with dirVec := dirVec }
  if ← failed then return ← stepCleanup state fileVec dirPath dir sysDir
  closedir opened
  return (state, decide (state.pathVec.count > 0))

/-- `jfs_fw_state_step`: the state as it is left and the value returned. -/
def jfsFwStateStep (state : FwState) : SysM (FwState × Bool) := do
  if state.pathVec.count = 0 then return (state, true)
  let fileVec ← fwFileVectorInit .zero
  if ← failed then return ← stepCleanup state fileVec .zero .zero none
  let (pathVec, dirPath) ← fwPathVectorPop state.pathVec .zero
  let state := { state with pathVec := pathVec }
  if ← failed then return ← stepCleanup state fileVec dirPath .zero none
  stepVisit state fileVec dirPath

/-- `jfs_fw_record_init`: the record, and the state unless it was destroyed. -/
def jfsFwRecordInit (recordInit : FwRecord) (stateMove : FwState) : SysM (FwRecord × Option FwState) := do
  if stateMove.pathVec.count > 0 then
    setErr .fwState
    return (recordInit, some stateMove)
  let (newDirArray, dirVec) ← fwDirVectorToArray stateMove.dirVec
  let stateMove := { stateMove with dirVec := dirVec }
  if ← failed then return (recordInit, some stateMove)
  jfsFwStateDestroy (some stateMove)
  return ({ dirArray := newDirArray }, none)

/-- `jfs_fw_record_free`. -/
def jfsFwRecordFree (recordFree : FwRecord) : SysM FwRecord := do
  freeArray (fun dir => do let _ ← jfsFwDirFree dir) recordFree.dirArray
  return .zero

end Jcl
