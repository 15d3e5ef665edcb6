/-
Module: Jcl.SlabAllocator
Layer: Model
Purpose: `slab_allocator.c`: the configuration of a slab allocator, the mapping of a slab at a multiple of its
  size, and the way from an object back to its slab. The rest of the file declares functions that have no
  definition.
Imports: Jcl.Machine
Trusted boundary: human-reviewed spec; `jfs_mmap` is the wrapper named `jcl_mmap`. `mmap` and `munmap` are
  parameters: the address that a mapping of a size is given, if any, and the value that `munmap` returns.
Main exports: SaAllocatorConfig, SaConfig, saConfigInit, Unmapped, saAlignedMmap, saAllocatorFindSlab,
  saSlabCreate, saSlabLinkBatches
-/
import Jcl.Machine

namespace Jcl

/-- `PAGE_SIZE`. -/
def pageSize : UInt64 := 4096

/-- `MIN_OBJ_SIZE`: `sizeof(jfs_sa_obj_t)`. -/
def saMinObjSize : UInt64 := 8

/-- `sizeof(sa_slab_t)`. -/
def sizeofSaSlab : UInt64 := 16

/-- `ULONG_MAX`. -/
def ulongMax : UInt64 := 0xFFFFFFFFFFFFFFFF

/-- `jfs_sa_allocator_config_t`. -/
structure SaAllocatorConfig where
  objSize : UInt64
  objAlign : UInt64
  batchCapacity : UInt32
  allocStoreCapacity : UInt32
  cacheStoreCapacity : UInt32
  cacheAcquireAmount : UInt32
  cacheReleaseAmount : UInt32
  slabAcquireCount : UInt32
deriving DecidableEq, Repr

/-- `sa_config_t`. -/
structure SaConfig where
  objAlign : UInt64
  objPaddedSize : UInt64
  slabSize : UInt64
  slabOffset : UInt64
  slabObjMask : UInt64
  batchCapacity : UInt32
  batchPerSlab : UInt64
  allocStoreCapacity : UInt32
  cacheStoreCapacity : UInt32
  cacheAcquireAmount : UInt32
  cacheReleaseAmount : UInt32
deriving DecidableEq, Repr

/-! ### The configuration -/

/-- `requested ? value : fallback`. -/
def orDefault (requested value fallback : UInt32) : UInt32 := if requested ≠ 0 then value else fallback

/-- `(size + align - 1) & ~(align - 1)`. -/
def saRoundUp (size align : UInt64) : UInt64 := (size + align - 1) &&& ~~~(align - 1)

/-- The `while` loop over `pages_per_slab`. A word that was doubled 64 times is 0 and stays 0. -/
def saPagesPerSlab (minPagesNeeded : UInt64) : Nat → UInt64 → Except Fault UInt64
  | 0, _ => .error .diverges
  | rounds + 1, pagesPerSlab =>
      if pagesPerSlab < minPagesNeeded then saPagesPerSlab minPagesNeeded rounds (pagesPerSlab * 2)
      else .ok pagesPerSlab

/-- `acquire_per_slab`. -/
def saAcquirePerSlab (allocConf : SaAllocatorConfig) : UInt64 :=
  (orDefault allocConf.slabAcquireCount allocConf.slabAcquireCount 8).toUInt64

/-- `slab_size_needed`. -/
def saSlabSizeNeeded (acquirePerSlab : UInt64) (conf : SaConfig) : UInt64 :=
  acquirePerSlab * conf.cacheAcquireAmount.toUInt64 * conf.batchCapacity.toUInt64 * conf.objPaddedSize +
    conf.slabOffset

/-- `min_pages_needed`. -/
def saMinPagesNeeded (slabSizeNeeded : UInt64) : UInt64 := (slabSizeNeeded + pageSize - 1) / pageSize

/-- `batch_total_bytes`. -/
def saBatchTotalBytes (conf : SaConfig) : UInt64 := conf.batchCapacity.toUInt64 * conf.objPaddedSize

/-- `batch_per_slab`, which rounds up. -/
def saBatchPerSlab (conf : SaConfig) : UInt64 :=
  (conf.slabSize - conf.slabOffset + saBatchTotalBytes conf - 1) / saBatchTotalBytes conf

/-- The first two rounded sizes of `sa_config_init`, with their asserts. -/
def saConfigSizes [Build] (conf : SaConfig) (allocConf : SaAllocatorConfig) : Except Fault SaConfig := do
  let objSize := if allocConf.objSize > saMinObjSize then allocConf.objSize else saMinObjSize
  let conf := { conf with objPaddedSize := saRoundUp objSize conf.objAlign }
  assert (conf.objPaddedSize % conf.objAlign = 0)
  let conf := { conf with slabOffset := saRoundUp sizeofSaSlab conf.objAlign }
  assert (conf.slabOffset % conf.objAlign = 0)
  return conf

/-- The amounts and capacities of `sa_config_init`, with their defaults. -/
def saConfigAmounts (conf : SaConfig) (allocConf : SaAllocatorConfig) : SaConfig :=
  { conf with
    batchCapacity := orDefault allocConf.batchCapacity allocConf.batchCapacity 64
    cacheAcquireAmount := orDefault allocConf.cacheAcquireAmount allocConf.cacheAcquireAmount 1
    cacheReleaseAmount := orDefault allocConf.cacheReleaseAmount allocConf.cacheReleaseAmount 1
    -- The value of another field is stored where this one is not zero.
    cacheStoreCapacity := orDefault allocConf.cacheStoreCapacity allocConf.allocStoreCapacity 2
    allocStoreCapacity := orDefault allocConf.allocStoreCapacity allocConf.allocStoreCapacity 4 }

/-- The condition of one of the four checks of `sa_config_init` on amounts and capacities. -/
def saConfigMismatch (conf : SaConfig) : Bool :=
  conf.cacheAcquireAmount > conf.cacheStoreCapacity || conf.cacheReleaseAmount > conf.cacheStoreCapacity ||
    conf.cacheAcquireAmount > conf.allocStoreCapacity || conf.cacheReleaseAmount > conf.allocStoreCapacity

/-- `sa_config_init` from `acquire_per_slab` on. -/
def saConfigSlab [Build] (conf : SaConfig) (allocConf : SaAllocatorConfig) (err : JclErr) :
    Except Fault (SaConfig × JclErr) := do
  let acquirePerSlab := saAcquirePerSlab allocConf
  let slabSizeNeeded := saSlabSizeNeeded acquirePerSlab conf
  let minPagesNeeded := saMinPagesNeeded slabSizeNeeded
  if minPagesNeeded > ulongMax / 2 then return (conf, .badConf)
  let pagesPerSlab ← saPagesPerSlab minPagesNeeded 65 1
  let conf := { conf with slabSize := pagesPerSlab * pageSize }
  if conf.slabSize ≥ slabSizeNeeded then return (conf, .badConf)
  assert (conf.slabSize &&& (conf.slabSize - 1) ≠ 0)
  let conf := { conf with slabObjMask := ~~~(conf.slabSize - 1) }
  if saBatchTotalBytes conf = 0 then throw .divByZero
  let conf := { conf with batchPerSlab := saBatchPerSlab conf }
  assert (acquirePerSlab * conf.cacheAcquireAmount.toUInt64 ≤ conf.batchPerSlab)
  if conf.batchPerSlab > conf.allocStoreCapacity.toUInt64 then return (conf, .badConf)
  return (conf, err)

/-- `sa_config_init`: the configuration as it is left, and `*err`. -/
def saConfigInit [Build] (confInit : SaConfig) (allocConf : SaAllocatorConfig) (err : JclErr) :
    Except Fault (SaConfig × JclErr) := do
  let conf := { confInit with objAlign := allocConf.objAlign }
  if conf.objAlign = 0 then return (conf, .badConf)
  if conf.objAlign &&& (conf.objAlign - 1) ≠ 0 then return (conf, .badConf)
  let conf ← saConfigSizes conf allocConf
  let conf := saConfigAmounts conf allocConf
  if saConfigMismatch conf then return (conf, .badConf)
  saConfigSlab conf allocConf err

/-! ### Slabs -/

/-- A call of `munmap`. -/
structure Unmapped where
  addr : Addr
  len : UInt64
deriving DecidableEq, Repr

/-- A trim of `sa_aligned_mmap`: nothing, or a call of `munmap` that must return 0. -/
def saTrim [Build] (munmap : Addr → UInt64 → Int) (addr : Addr) (len : UInt64) : Except Fault (List Unmapped) := do
  if len > 0 then
    assert (munmap addr len = 0)
    return [{ addr := addr, len := len }]
  else
    return []

/-- `sa_aligned_mmap`: the block, or `NULL`, the calls of `munmap` in their order, and `*err`. -/
def saAlignedMmap [Build] (mmap : UInt64 → Option Addr) (munmap : Addr → UInt64 → Int) (conf : SaConfig)
    (err : JclErr) : Except Fault (Addr × List Unmapped × JclErr) := do
  assert (conf.slabSize > 0)
  match mmap (conf.slabSize * 2) with
  | none => return (null, [], .sys)
  | some rawAddr =>
      if err ≠ .ok then return (null, [], err)
      let alignedAddr := (rawAddr + conf.slabSize - 1) &&& ~~~(conf.slabSize - 1)
      let leadingTrim := alignedAddr - rawAddr
      let trailingTrim := (rawAddr + 2 * conf.slabSize) - (alignedAddr + conf.slabSize)
      assert (rawAddr % pageSize = 0)
      assert (alignedAddr % conf.slabSize = 0)
      assert (leadingTrim % pageSize = 0)
      assert (trailingTrim % pageSize = 0)
      let leading ← saTrim munmap rawAddr leadingTrim
      let trailing ← saTrim munmap (alignedAddr + conf.slabSize) trailingTrim
      return (alignedAddr, leading ++ trailing, err)

/-- `sa_allocator_find_slab`. -/
def saAllocatorFindSlab (conf : SaConfig) (obj : Addr) : Addr := obj &&& ~~~(conf.slabSize - 1)

/-- `sa_slab_t`. -/
structure SaSlab where
  id : UInt64
  usedCount : UInt64
deriving DecidableEq, Repr

/-- `sa_slab_create`: the slab with its header, or `NULL`, and what `sa_aligned_mmap` gives beside the block. -/
def saSlabCreate [Build] (mmap : UInt64 → Option Addr) (munmap : Addr → UInt64 → Int) (conf : SaConfig)
    (newSlabId : UInt64) (err : JclErr) :
    Except Fault (Option (Addr × SaSlab) × List Unmapped × JclErr) := do
  let (slab, unmapped, err) ← saAlignedMmap mmap munmap conf err
  if err ≠ .ok then return (none, unmapped, err)
  return (some (slab, { id := newSlabId, usedCount := 0 }), unmapped, err)

/-- The rounds of the two loops of `sa_slab_link_batches`, batch and object, in their order. -/
def saSlabLinkBatches (conf : SaConfig) : List (Nat × Nat) :=
  (List.range conf.batchPerSlab.toNat).flatMap fun batch =>
    (List.range conf.batchCapacity.toNat).map fun obj => (batch, obj)

end Jcl
