/-
Module: Jcl.MemoryBlock
Layer: Model
Purpose: `memory_block.c`: an array of objects in a component, accessed by index. Memory keeps a record of
  the ranges that were read or written.
Imports: Jcl.Lib.ByteMemory, Jcl.MemoryLayoutGenerator
Trusted boundary: human-reviewed spec
Main exports: Memory, Mb, jfsMbInit, jfsMbIndex, jfsMbRead, jfsMbWrite, jfsMbRemap
-/
import Jcl.Lib.ByteMemory
import Jcl.MemoryLayoutGenerator

namespace Jcl

/-- Memory, and the first address and length of each access, oldest first. -/
structure Memory where
  bytes : ByteMemory
  accesses : List (Addr × Nat)

/-- Reads `n` bytes from `a` on. -/
def Memory.load (mem : Memory) (a : Addr) (n : Nat) : List UInt8 × Memory :=
  (mem.bytes.read a n, { mem with accesses := mem.accesses ++ [(a, n)] })

/-- Writes the bytes from `a` on. -/
def Memory.store (mem : Memory) (a : Addr) (bs : List UInt8) : Memory :=
  { bytes := mem.bytes.write a bs, accesses := mem.accesses ++ [(a, bs.length)] }

/-- `jfs_mb_t`. -/
structure Mb where
  basePtr : Addr
  objSize : UInt64
  capacity : UInt64
deriving DecidableEq, Repr

/-- `jfs_mb_init`: the record and the final `*err`. -/
def jfsMbInit (mbInit : Mb) (component : MlgComponent) (err : JclErr) : Mb × JclErr :=
  if !jfsMlgValidComponent component then (mbInit, .badConf)
  else
    ({ basePtr := component.ptr, objSize := component.desc.size, capacity := component.desc.count }, err)

/-- `jfs_mb_index`. -/
def jfsMbIndex (mb : Mb) (index : UInt64) : Addr := mb.basePtr + index * mb.objSize

/-- `jfs_mb_write`. -/
def jfsMbWrite (mem : Memory) (mb : Mb) (obj : List UInt8) (index : UInt64) : Memory :=
  mem.store (jfsMbIndex mb index) (obj.take mb.objSize.toNat)

/-- `jfs_mb_read`: the bytes copied to `obj`. -/
def jfsMbRead (mem : Memory) (mb : Mb) (index : UInt64) : List UInt8 × Memory :=
  mem.load (jfsMbIndex mb index) mb.objSize.toNat

/-- `jfs_mb_remap`. `memmove` copies as if through a buffer of its own. -/
def jfsMbRemap (mem : Memory) (mb : Mb) (destIndex srcIndex objCount : UInt64) : Memory :=
  let (bs, mem) := mem.load (jfsMbIndex mb srcIndex) (mb.objSize * objCount).toNat
  mem.store (jfsMbIndex mb destIndex) bs

end Jcl
