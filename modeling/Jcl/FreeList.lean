/-
Module: Jcl.FreeList
Layer: Model
Purpose: `free_list.c`: a free list threaded through the slots of a component. The list only reads and
  writes the `next` pointer at the start of a slot, so its functions are written over any memory that
  offers that pointer; byte memory is the instance the C code runs on.
Imports: Jcl.Lib.ByteMemory, Jcl.MemoryLayoutGenerator
Trusted boundary: human-reviewed spec
Main exports: LinkMemory, Fl, flLinkMemory, jfsFlInit, jfsFlAlloc, jfsFlFree
-/
import Jcl.Lib.ByteMemory
import Jcl.MemoryLayoutGenerator

namespace Jcl

/-- A memory whose cells can be read and written as `jfs_fl_obj_t`. -/
class LinkMemory (M : Type) where
  /-- `obj->next` -/
  next : M → Addr → Addr
  /-- `obj->next = ptr` -/
  setNext : M → Addr → Addr → M

/-- `next` is the first word of a slot. -/
instance : LinkMemory ByteMemory where
  next := ByteMemory.loadWord
  setNext := ByteMemory.storeWord

/-- `jfs_fl_t`. -/
structure Fl where
  list : Addr
  count : UInt64
deriving DecidableEq, Repr

variable {M : Type} [LinkMemory M]

/-- One iteration of the loop of `fl_link_memory`. -/
def flLinkStep (memory objSize : UInt64) (st : M × Addr) (i : Nat) : M × Addr :=
  let obj := memory + UInt64.ofNat i * objSize
  (LinkMemory.setNext st.1 obj st.2, obj)

/-- `fl_link_memory`: the memory with the links written and the head of the list. -/
def flLinkMemory (mem : M) (memory objSize objCount : UInt64) : M × Addr :=
  (List.range objCount.toNat).foldl (flLinkStep memory objSize) (mem, null)

/-- `jfs_fl_init`; the list is left unset when the component is refused. -/
def jfsFlInit (mem : M) (component : MlgComponent) (err : JclErr) : M × Option Fl × JclErr :=
  if !jfsMlgValidComponent component then (mem, none, .badConf)
  else
    let (mem, list) := flLinkMemory mem component.ptr component.desc.size component.desc.count
    (mem, some { list := list, count := component.desc.count }, err)

/-- `jfs_fl_alloc`: the slot, or `NULL`, and the updated list. -/
def jfsFlAlloc (mem : M) (fl : Fl) : Except Fault (Addr × Fl) :=
  if fl.count = 0 then .ok (null, fl)
  else if fl.list = null then .error .nullDeref
  else .ok (fl.list, { list := LinkMemory.next mem fl.list, count := fl.count - 1 })

/-- `jfs_fl_free`. -/
def jfsFlFree (mem : M) (fl : Fl) (ptrMove : Addr) : M × Fl :=
  if ptrMove = null then (mem, fl)
  else (LinkMemory.setNext mem ptrMove fl.list, { list := ptrMove, count := fl.count + 1 })

end Jcl
