/-
Module: Jcl.Spec.SlabLayout
Layer: Spec
Purpose: The layout of a slab in unbounded arithmetic: the sizes that a configuration asks for, with its
  defaults filled in, and where the objects of the batches lie. The slab takes a power of two of pages; the
  number of batches in it is the rest of the slab divided by the size of a batch, as `sa_config_init` rounds it.
  The same is said of the words of a configuration.
Imports: Jcl.Lib.WordAlign, Jcl.SlabAllocator
Trusted boundary: human-reviewed spec
Main exports: SlabParams, SlabParams.Valid, slabSizeNeeded, slabSize, batchPerSlab, objOffset, BatchesFit, Fills,
  SaConfig.BatchesFit, Configured
-/
import Jcl.Lib.WordAlign
import Jcl.SlabAllocator

namespace Jcl

open WordAlign

/-- The parameters of a slab. -/
structure SlabParams where
  objSize : Nat
  objAlign : Nat
  batchCapacity : Nat
  cacheAcquireAmount : Nat
  acquirePerSlab : Nat
deriving DecidableEq, Repr

namespace SlabParams

/-- The alignment is a power of two, and no amount is zero. -/
structure Valid (p : SlabParams) : Prop where
  align : p.objAlign.isPowerOfTwo
  batchCapacity : 0 < p.batchCapacity
  cacheAcquireAmount : 0 < p.cacheAcquireAmount
  acquirePerSlab : 0 < p.acquirePerSlab

/-- `obj_padded_size`: an object has room for a link. -/
def objPaddedSize (p : SlabParams) : Nat := roundUp (max p.objSize 8) p.objAlign

/-- `slab_offset`: the objects begin after the header of the slab. -/
def slabOffset (p : SlabParams) : Nat := roundUp 16 p.objAlign

/-- `slab_size_needed`. -/
def slabSizeNeeded (p : SlabParams) : Nat :=
  p.acquirePerSlab * p.cacheAcquireAmount * p.batchCapacity * p.objPaddedSize + p.slabOffset

/-- `min_pages_needed`. -/
def minPagesNeeded (p : SlabParams) : Nat := (p.slabSizeNeeded + 4096 - 1) / 4096

/-- `slab_size`: the pages that are needed, rounded up to a power of two. -/
def slabSize (p : SlabParams) : Nat := ceilPow2 p.minPagesNeeded * 4096

/-- `batch_total_bytes`. -/
def batchTotalBytes (p : SlabParams) : Nat := p.batchCapacity * p.objPaddedSize

/-- `batch_per_slab`, as `sa_config_init` rounds it. -/
def batchPerSlab (p : SlabParams) : Nat :=
  (p.slabSize - p.slabOffset + p.batchTotalBytes - 1) / p.batchTotalBytes

/-- The offset of object `j` of batch `i`. -/
def objOffset (p : SlabParams) (i j : Nat) : Nat := p.slabOffset + (i * p.batchCapacity + j) * p.objPaddedSize

/-- What is to hold of the batches of a slab: every object of every batch is aligned in a slab that begins at a
    multiple of its size, and lies inside the slab, and there are the batches that the slab was made for, which
    lie inside the slab. -/
structure BatchesFit (p : SlabParams) : Prop where
  aligned : ∀ i < p.batchPerSlab, ∀ j < p.batchCapacity, ∀ slab, p.slabSize ∣ slab →
    p.objAlign ∣ slab + p.objOffset i j
  inside : ∀ i < p.batchPerSlab, ∀ j < p.batchCapacity, p.objOffset i j + p.objPaddedSize ≤ p.slabSize
  room : p.acquirePerSlab * p.cacheAcquireAmount ≤ p.batchPerSlab
  room_inside : ∀ i < p.acquirePerSlab * p.cacheAcquireAmount, ∀ j < p.batchCapacity,
    p.objOffset i j + p.objPaddedSize ≤ p.slabSize

/-- The size of a batch divides what the header leaves of the slab. -/
def Fills (p : SlabParams) : Prop :=
  p.batchCapacity * roundUp (max p.objSize 8) p.objAlign ∣
    ceilPow2 ((p.acquirePerSlab * p.cacheAcquireAmount * p.batchCapacity *
      roundUp (max p.objSize 8) p.objAlign + roundUp 16 p.objAlign + 4096 - 1) / 4096) * 4096 -
      roundUp 16 p.objAlign

end SlabParams

/-! ### The words of a configuration -/

/-- The offset of object `j` of batch `i`. -/
def SaConfig.objOffset (conf : SaConfig) (i j : Nat) : Nat :=
  conf.slabOffset.toNat + (i * conf.batchCapacity.toNat + j) * conf.objPaddedSize.toNat

/-- What is to hold of the batches that `sa_slab_link_batches` goes through in a slab made for `wanted` of them. -/
structure SaConfig.BatchesFit (conf : SaConfig) (wanted : Nat) : Prop where
  aligned : ∀ i j, (i, j) ∈ saSlabLinkBatches conf → ∀ slab, conf.slabSize.toNat ∣ slab →
    conf.objAlign.toNat ∣ slab + conf.objOffset i j
  inside : ∀ i j, (i, j) ∈ saSlabLinkBatches conf →
    conf.objOffset i j + conf.objPaddedSize.toNat ≤ conf.slabSize.toNat
  room : wanted ≤ conf.batchPerSlab.toNat
  room_inside : ∀ i < wanted, ∀ j < conf.batchCapacity.toNat,
    conf.objOffset i j + conf.objPaddedSize.toNat ≤ conf.slabSize.toNat

/-- What `sa_config_init` has stored for the configuration `c` once it has computed `batch_per_slab`. -/
def Configured [Build] (c : SaAllocatorConfig) (conf : SaConfig) : Prop :=
  ∃ (confInit sized : SaConfig) (pagesPerSlab : UInt64),
    saConfigSizes { confInit with objAlign := c.objAlign } c = .ok sized ∧
    saPagesPerSlab (saMinPagesNeeded (saSlabSizeNeeded (saAcquirePerSlab c) (saConfigAmounts sized c))) 65 1 =
      .ok pagesPerSlab ∧
    let slab : SaConfig := { saConfigAmounts sized c with
      slabSize := pagesPerSlab * pageSize
      slabObjMask := ~~~(pagesPerSlab * pageSize - 1) }
    conf = { slab with batchPerSlab := saBatchPerSlab slab }

end Jcl
