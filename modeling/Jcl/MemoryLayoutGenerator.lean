/-
Module: Jcl.MemoryLayoutGenerator
Layer: Model
Purpose: `memory_layout_generator.c`: descriptions of arrays (`size`, `align`, `count`), the append that
  lays one array after a block, and `jfs_mlg_memory_init`, which lays a bookkeeping record, a component
  list, a header and any number of components in one allocation. All arithmetic is `size_t` arithmetic
  and wraps.
Imports: Jcl.Machine
Trusted boundary: human-reviewed spec
Main exports: MlgDesc, MlgLayout, MlgComponent, MlgMemory, jfsMlgAlignSize, jfsMlgAppend, jfsMlgMemoryInit
-/
import Jcl.Machine

namespace Jcl

/-- `jfs_mlg_desc_t`: an array of `count` objects. -/
structure MlgDesc where
  size : UInt64
  align : UInt64
  count : UInt64
deriving DecidableEq, Repr

/-- `jfs_mlg_layout_t`. `descriptions` points to an array of `descriptionsCount` entries. -/
structure MlgLayout where
  descriptions : List MlgDesc
  descriptionsCount : UInt64
  headerDesc : MlgDesc
  length_descriptions : descriptions.length = descriptionsCount.toNat

/-- `jfs_mlg_component_t`. -/
structure MlgComponent where
  ptr : Addr
  desc : MlgDesc
deriving DecidableEq, Repr

/-- `jfs_mlg_memory_t` at address `self`, with the array its `component_list` field points to. -/
structure MlgMemory where
  self : Addr
  componentList : Addr
  components : List MlgComponent
  componentCount : UInt64
  header : Addr
deriving DecidableEq, Repr

/-- `jfs_mlg_valid_align`. -/
def jfsMlgValidAlign (align : UInt64) : Bool :=
  align != 0 && ((align - 1) &&& align) == 0

/-- `jfs_mlg_valid_desc`. -/
def jfsMlgValidDesc (desc : MlgDesc) : Bool :=
  jfsMlgValidAlign desc.align && decide (desc.size > 0) && decide (desc.count > 0)

/-- `jfs_mlg_valid_component`. -/
def jfsMlgValidComponent (component : MlgComponent) : Bool :=
  jfsMlgValidDesc component.desc && component.ptr != null

section

variable [Build]

/-- `jfs_mlg_apply_offset`. -/
def jfsMlgApplyOffset (ptr offset : UInt64) : Except Fault Addr := do
  assert (offset > 0)
  return ptr + offset

/-- `jfs_mlg_align_size`. -/
def jfsMlgAlignSize (size align : UInt64) : Except Fault UInt64 := do
  assert (jfsMlgValidAlign align)
  assert (size > 0)
  return (size + align - 1) &&& ~~~(align - 1)

/-- `jfs_mlg_append`: the updated `*base` and the offset of the appended array. -/
def jfsMlgAppend (base toAppend : MlgDesc) : Except Fault (MlgDesc × UInt64) := do
  assert (jfsMlgValidDesc base)
  assert (jfsMlgValidDesc toAppend)
  let alignedBaseSize ← jfsMlgAlignSize base.size toAppend.align
  let base := { base with size := alignedBaseSize + toAppend.size * toAppend.count }
  let base := if toAppend.align > base.align then { base with align := toAppend.align } else base
  return (base, alignedBaseSize)

/-- The loop of `jfs_mlg_memory_init` that appends the descriptions and stores their offsets.
    `offsetsBytes` is the size of the `component_offsets` array and `i` the index of the next store. The
    result is `none` when a description is invalid. -/
def mlgAppendAll (offsetsBytes : UInt64) :
    Nat → MlgDesc → List MlgDesc → Except Fault (Option (MlgDesc × List UInt64))
  | _, memoryDesc, [] => return some (memoryDesc, [])
  | i, memoryDesc, desc :: rest => do
      if !jfsMlgValidDesc desc then return none
      let (memoryDesc, offset) ← jfsMlgAppend memoryDesc desc
      if 8 * i + 8 > offsetsBytes.toNat then throw .outOfBounds
      match ← mlgAppendAll offsetsBytes (i + 1) memoryDesc rest with
      | none => return none
      | some (memoryDesc, offsets) => return some (memoryDesc, offset :: offsets)

/-- The loop of `jfs_mlg_memory_init` that fills the component list. -/
def mlgFillComponents (memory : Addr) :
    List MlgDesc → List UInt64 → Except Fault (List MlgComponent)
  | desc :: descs, offset :: offsets => do
      let ptr ← jfsMlgApplyOffset memory offset
      let rest ← mlgFillComponents memory descs offsets
      return { ptr := ptr, desc := desc } :: rest
  | _, _ => return []

/-- The two allocators `jfs_mlg_memory_init` calls. `malloc` says whether a request of that many bytes
    succeeds; `alignedAlloc align size` is the block returned, if any. -/
structure MlgAllocators where
  malloc : UInt64 → Bool
  alignedAlloc : UInt64 → UInt64 → Option Addr

/-- `sizeof` and `alignof` of `jfs_mlg_memory_t` as a one-element description. -/
def mlgMemoryDesc : MlgDesc := { size := 24, align := 8, count := 1 }

/-- The component list as a description. -/
def mlgComponentListDesc (count : UInt64) : MlgDesc := { size := 32, align := 8, count := count }

/-- `jfs_mlg_memory_init`: the final `*err` and the returned pointer, with the record and the component
    list stored behind it. -/
def jfsMlgMemoryInit (alloc : MlgAllocators) (layout : MlgLayout) (err : JclErr) :
    Except Fault (JclErr × Option MlgMemory) := do
  if !jfsMlgValidDesc layout.headerDesc then return (.badConf, none)
  let (memoryDesc, componentListOffset) ←
    jfsMlgAppend mlgMemoryDesc (mlgComponentListDesc layout.descriptionsCount)
  let (memoryDesc, headerOffset) ← jfsMlgAppend memoryDesc layout.headerDesc
  let offsetsBytes := 8 * layout.descriptionsCount
  let err := if alloc.malloc offsetsBytes then err else .sys
  if err ≠ .ok then return (err, none)
  match ← mlgAppendAll offsetsBytes 0 memoryDesc layout.descriptions with
  | none => return (.badConf, none)
  | some (memoryDesc, componentOffsets) =>
      match alloc.alignedAlloc memoryDesc.align memoryDesc.size with
      | none => return (.sys, none)
      | some memory =>
          let componentList ← jfsMlgApplyOffset memory componentListOffset
          let header ← jfsMlgApplyOffset memory headerOffset
          let components ← mlgFillComponents memory layout.descriptions componentOffsets
          return (err, some
            { self := memory
              componentList := componentList
              components := components
              componentCount := layout.descriptionsCount
              header := header })

end

end Jcl
