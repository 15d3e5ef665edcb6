/-
Module: Jcl.Resources
Layer: Model
Purpose: The calls by which the library takes memory and directory streams from the system and gives them
  back: the wrappers `jcl_malloc`, `jcl_realloc` and `jcl_opendir` of `error.c`, and `free` and `closedir`. The
  system comes with the answers that it will give to the coming calls, and logs what it handed out and what
  it got back. A pointer carries the number of the allocation that it is from.
Imports: Jcl.Error
Trusted boundary: human-reviewed spec; `jfs_malloc`, `jfs_realloc` and `jfs_opendir` are the wrappers named
  `jcl_malloc`, `jcl_realloc` and `jcl_opendir` here. A call that succeeds leaves `errno` alone.
Main exports: CStr, Ptr, CArray, Dirent, DirStream, Event, Sys, SysM, failed, setErr, jclMalloc, jclRealloc,
  free, jclOpendir, closedir
-/
import Jcl.Error

namespace Jcl

/-- A C string, without the terminating 0. -/
abbrev CStr := List UInt8

/-- A pointer into allocated memory. -/
inductive Ptr where
  /-- `NULL` -/
  | null
  /-- a field that was never written -/
  | uninit
  /-- the block of the allocation with this number -/
  | block (id : Nat)
deriving DecidableEq, Repr

/-- A pointer to an array, with the cells of the array that were written. -/
structure CArray (α : Type) where
  ptr : Ptr
  cells : List α

/-- `NULL` as an array. -/
def CArray.null {α : Type} : CArray α := { ptr := .null, cells := [] }

/-- The values of `d_type` that the file tells apart, and the others by number. -/
inductive DirentType where
  | unknown
  | dir
  | reg
  | other (code : UInt8)
deriving DecidableEq, Repr

/-- `struct dirent`. -/
structure Dirent where
  dName : CStr
  dType : DirentType
  dIno : Nat
deriving DecidableEq, Repr

/-- What `readdir` answers on a directory stream: the entries in this order, then `NULL`, with `errno` set if
    that is an error. -/
structure DirStream where
  entries : List Dirent
  error : Option Errno
deriving DecidableEq, Repr

/-- An open `DIR`, with the number of the call that opened it. -/
structure DirHandle where
  id : Nat
  stream : DirStream

/-- What the system handed out or got back. -/
inductive Event where
  | allocated (id : Nat)
  | freed (id : Nat)
  | opened (id : Nat)
  | closed (id : Nat)
deriving DecidableEq, Repr

/-- The system as a caller of the library sees it. `allocs n size` says whether allocation number `n`, of `size`
    bytes, succeeds; `opens n path` is the answer to `opendir` number `n`, of `path`. The events are logged with
    the latest one first. An `errno` of 0 is `none`. -/
structure Sys where
  allocs : Nat → Nat → Bool
  opens : Nat → CStr → Except Errno DirStream
  allocCalls : Nat
  openCalls : Nat
  events : List Event
  errno : Option Errno
  err : JclErr

/-- A call that may stop with a fault. -/
abbrev SysM := StateT Sys (Except Fault)

/-- `*err`. -/
def getErr : SysM JclErr := do return (← get).err

/-- The condition of `GOTO_IF_ERR` and of the `CHECK_ERR` macros. -/
def failed : SysM Bool := do return (← get).err != .ok

/-- An assignment to `*err`; with `ok` it is `RES_ERR`. -/
def setErr (err : JclErr) : SysM Unit := modify fun s => { s with err := err }

/-- `REMAP_ERR`. -/
def remapErr (fromVar toVar : JclErr) : SysM Unit :=
  modify fun s => if s.err = fromVar then { s with err := toVar } else s

/-- The `errno` of a failed allocation. -/
def enomem : Errno := .other 12

/-- `jcl_malloc`. -/
def jclMalloc (size : Nat) : SysM Ptr := do
  let s ← get
  let id := s.allocCalls
  if s.allocs id size then
    set { s with allocCalls := id + 1, events := .allocated id :: s.events }
    return .block id
  else
    set { s with allocCalls := id + 1, errno := some enomem, err := .sys }
    return .null

/-- `jcl_realloc`. A block that was replaced is freed; one that could not be replaced stays. -/
def jclRealloc (ptr : Ptr) (size : Nat) : SysM Ptr := do
  match ptr with
  | .uninit => throw .uninitialized
  | .null => jclMalloc size
  | .block old =>
      let s ← get
      let id := s.allocCalls
      if s.allocs id size then
        set { s with allocCalls := id + 1, events := .allocated id :: .freed old :: s.events }
        return .block id
      else
        set { s with allocCalls := id + 1, errno := some enomem, err := .sys }
        return .null

/-- `free`. -/
def free (ptr : Ptr) : SysM Unit := do
  match ptr with
  | .uninit => throw .uninitialized
  | .null => return
  | .block id => modify fun s => { s with events := .freed id :: s.events }

/-- Reading an array through its pointer. -/
def CArray.read {α : Type} (array : CArray α) : SysM (List α) := do
  match array.ptr with
  | .uninit => throw .uninitialized
  | .null => throw .nullDeref
  | .block _ => return array.cells

/-- The release of an array and of what its cells own, which a `NULL` array skips. -/
def freeArray {α : Type} (freeCell : α → SysM Unit) (array : CArray α) : SysM Unit := do
  match array.ptr with
  | .uninit => throw .uninitialized
  | .null => return
  | .block _ =>
      array.cells.forM freeCell
      free array.ptr

/-- The `switch` of `jcl_opendir`. -/
def opendirErr : Errno → JclErr
  | .enoent => .invalPath
  | .enotdir => .invalPath
  | .eacces => .access
  | _ => .sys

/-- `jcl_opendir`. -/
def jclOpendir (pathStr : CStr) : SysM (Option DirHandle) := do
  let s ← get
  let id := s.openCalls
  match s.opens id pathStr with
  | .ok stream =>
      set { s with openCalls := id + 1, events := .opened id :: s.events }
      return some { id := id, stream := stream }
  | .error errno =>
      set { s with openCalls := id + 1, errno := some errno, err := opendirErr errno }
      return none

/-- `closedir`. -/
def closedir (dir : DirHandle) : SysM Unit := modify fun s => { s with events := .closed dir.id :: s.events }

end Jcl
