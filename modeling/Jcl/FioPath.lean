/-
Module: Jcl.FioPath
Layer: Model
Purpose: `file_io.c`: paths and names, which own a string together with its length, and the path buffer in
  which a path and a name are composed.
Imports: Jcl.Resources
Trusted boundary: human-reviewed spec; `PATH_MAX` and `NAME_MAX` are those of Linux
Main exports: FioPath, FioName, FioPathBuf, jfsFioPathInit, jfsFioPathFree, jfsFioPathTransfer, jfsFioNameInit,
  jfsFioNameFree, jfsFioNameTransfer, jfsFioPathBufClear, jfsFioPathBufCopy, jfsFioPathBufCompose
-/
import Jcl.Resources

namespace Jcl

/-- `PATH_MAX`. -/
def pathMax : Nat := 4096

/-- `NAME_MAX`. -/
def nameMax : Nat := 255

/-- The character `'/'`. -/
def slash : UInt8 := 47

/-- `jfs_fio_path_t`. -/
structure FioPath where
  len : Nat
  str : CArray UInt8

/-- A path overwritten with zeros. -/
def FioPath.zero : FioPath := { len := 0, str := .null }

/-- `jfs_fio_name_t`. -/
structure FioName where
  len : Nat
  str : CArray UInt8

/-- A name overwritten with zeros. -/
def FioName.zero : FioName := { len := 0, str := .null }

/-- `jfs_fio_path_buf_t`: `data` is the string that its `PATH_MAX + 1` bytes hold. -/
structure FioPathBuf where
  len : Nat
  data : CStr

/-- A path buffer overwritten with zeros. -/
def FioPathBuf.zero : FioPathBuf := { len := 0, data := [] }

/-- `strlcpy` into `size` bytes: the string that is stored. -/
def strlcpy (src : CStr) (size : Nat) : CStr := src.take (size - 1)

/-- `jfs_fio_path_init`. -/
def jfsFioPathInit (pathInit : FioPath) (pathStr : CStr) : SysM FioPath := do
  let pathStrLen :=
    if pathStr.length > 1 ∧ pathStr.getLast? = some slash then pathStr.length - 1 else pathStr.length
  if pathStrLen > pathMax then
    setErr .fioPathLen
    return pathInit
  let newStr ← jclMalloc (pathStrLen + 1)
  if ← failed then return pathInit
  return { len := pathStrLen, str := { ptr := newStr, cells := strlcpy pathStr (pathStrLen + 1) } }

/-- `jfs_fio_path_free`. -/
def jfsFioPathFree (pathFree : FioPath) : SysM FioPath := do
  free pathFree.str.ptr
  return .zero

/-- `jfs_fio_path_transfer`: both paths as it leaves them. -/
def jfsFioPathTransfer (pathFree : FioPath) : FioPath × FioPath := (pathFree, .zero)

/-- `jfs_fio_name_init`. -/
def jfsFioNameInit (nameInit : FioName) (nameStr : CStr) : SysM FioName := do
  let nameStrLen := nameStr.length
  if nameStrLen > nameMax then
    setErr .fioNameLen
    return nameInit
  let newStr ← jclMalloc (nameStrLen + 1)
  if ← failed then return nameInit
  return { len := nameStrLen, str := { ptr := newStr, cells := strlcpy nameStr (nameStrLen + 1) } }

/-- `jfs_fio_name_free`. -/
def jfsFioNameFree (nameFree : FioName) : SysM FioName := do
  free nameFree.str.ptr
  return .zero

/-- `jfs_fio_name_transfer`: both names as it leaves them. -/
def jfsFioNameTransfer (nameFree : FioName) : FioName × FioName := (nameFree, .zero)

/-- `jfs_fio_path_buf_clear`. -/
def jfsFioPathBufClear (_buf : FioPathBuf) : FioPathBuf := .zero

/-- `jfs_fio_path_buf_copy`. -/
def jfsFioPathBufCopy (buf : FioPathBuf) (path : FioPath) : SysM FioPathBuf := do
  if path.len = 0 then
    setErr .arg
    return buf
  let buf := jfsFioPathBufClear buf
  let str ← path.str.read
  return { buf with data := strlcpy str (pathMax + 1), len := path.len }

/-- `jfs_fio_path_buf_compose`. `snprintf` stores at most `PATH_MAX` bytes and the terminating 0. -/
def jfsFioPathBufCompose (buf : FioPathBuf) (path : FioPath) (name : FioName) : SysM FioPathBuf := do
  if path.len = 0 then
    setErr .arg
    return buf
  let newLen := path.len + name.len + 1
  if newLen > pathMax then
    setErr .fioPathOverflow
    return buf
  let buf := jfsFioPathBufClear buf
  let pathStr ← path.str.read
  let nameStr ← name.str.read
  return { buf with data := (pathStr ++ slash :: nameStr).take pathMax, len := newLen }

end Jcl
