/-
Module: Jcl.Proofs.SlabLayout
Layer: Proofs
Purpose: Which slabs hold their batches. The slab has room for the batches it was made for, but their number is
  rounded up: unless the size of a batch divides the rest of the slab, the last batch ends after it.
Imports: Jcl.Spec.SlabLayout
Trusted boundary: none (fully proved)
Main exports: slabSizeNeeded_le, Valid.objAlign_dvd_slabSize, Valid.batchesFit_iff
-/
import Jcl.Spec.SlabLayout

namespace Jcl

open WordAlign

namespace SlabParams

variable {p : SlabParams}

theorem Valid.objAlign_pos (h : p.Valid) : 0 < p.objAlign := Nat.pos_of_isPowerOfTwo h.align

theorem Valid.objPaddedSize_pos (h : p.Valid) : 0 < p.objPaddedSize := by
  have hle : max p.objSize 8 ≤ p.objPaddedSize := le_roundUp _ h.objAlign_pos
  omega

theorem Valid.batchTotalBytes_pos (h : p.Valid) : 0 < p.batchTotalBytes :=
  Nat.mul_pos h.batchCapacity h.objPaddedSize_pos

theorem objAlign_dvd_objPaddedSize (p : SlabParams) : p.objAlign ∣ p.objPaddedSize := dvd_roundUp _ _

theorem objAlign_dvd_slabOffset (p : SlabParams) : p.objAlign ∣ p.slabOffset := dvd_roundUp _ _

/-- Whole pages have room for what is needed. -/
theorem slabSizeNeeded_le (p : SlabParams) : p.slabSizeNeeded ≤ p.slabSize := by
  have hpages : p.slabSizeNeeded ≤ p.minPagesNeeded * 4096 := le_roundUp _ (by omega)
  have hceil : p.minPagesNeeded * 4096 ≤ p.slabSize := Nat.mul_le_mul_right _ (le_ceilPow2 _)
  exact Nat.le_trans hpages hceil

/-- The batches that a slab is made for lie inside it. -/
theorem room_le (p : SlabParams) :
    p.slabOffset + p.acquirePerSlab * p.cacheAcquireAmount * p.batchTotalBytes ≤ p.slabSize := by
  have hneeded : p.slabSizeNeeded =
      p.slabOffset + p.acquirePerSlab * p.cacheAcquireAmount * p.batchTotalBytes := by
    rw [slabSizeNeeded, batchTotalBytes, ← Nat.mul_assoc, Nat.add_comm]
  rw [← hneeded]
  exact p.slabSizeNeeded_le

theorem isPowerOfTwo_slabSize (p : SlabParams) : p.slabSize.isPowerOfTwo := by
  obtain ⟨k, hk⟩ := isPowerOfTwo_ceilPow2 p.minPagesNeeded
  exact ⟨k + 12, by rw [slabSize, hk, Nat.pow_add]⟩

theorem Valid.objAlign_dvd_slabSize (h : p.Valid) : p.objAlign ∣ p.slabSize := by
  apply isPowerOfTwo_dvd_of_le h.align p.isPowerOfTwo_slabSize
  have hoffset : 16 ≤ p.slabOffset := le_roundUp 16 h.objAlign_pos
  have halign : p.objAlign ≤ p.slabOffset := Nat.le_of_dvd (by omega) p.objAlign_dvd_slabOffset
  have hroom := p.room_le
  omega

/-- Objects are aligned wherever the slab begins. -/
theorem Valid.aligned (h : p.Valid) (i j : Nat) {slab : Nat} (hslab : p.slabSize ∣ slab) :
    p.objAlign ∣ slab + p.objOffset i j := by
  have hoffset : p.objAlign ∣ p.objOffset i j :=
    Nat.dvd_add p.objAlign_dvd_slabOffset (Nat.dvd_mul_left_of_dvd p.objAlign_dvd_objPaddedSize _)
  exact Nat.dvd_add (Nat.dvd_trans h.objAlign_dvd_slabSize hslab) hoffset

/-- An object ends before its batch does. -/
theorem objOffset_le {i j n : Nat} (hi : i < n) (hj : j < p.batchCapacity) :
    p.objOffset i j + p.objPaddedSize ≤ p.slabOffset + n * p.batchTotalBytes := by
  have hrank : i * p.batchCapacity + j + 1 ≤ n * p.batchCapacity := by
    have hbatch : (i + 1) * p.batchCapacity ≤ n * p.batchCapacity := Nat.mul_le_mul_right _ hi
    rw [Nat.add_mul, Nat.one_mul] at hbatch
    omega
  have hbytes := Nat.mul_le_mul_right p.objPaddedSize hrank
  rw [Nat.add_mul (i * p.batchCapacity + j), Nat.one_mul, Nat.mul_assoc n] at hbytes
  unfold objOffset batchTotalBytes
  omega

/-- The last object of the last of `n` batches ends where these batches do. -/
theorem objOffset_last {n : Nat} (hn : 0 < n) (hcap : 0 < p.batchCapacity) :
    p.objOffset (n - 1) (p.batchCapacity - 1) + p.objPaddedSize = p.slabOffset + n * p.batchTotalBytes := by
  have hrank : (n - 1) * p.batchCapacity + (p.batchCapacity - 1) + 1 = n * p.batchCapacity := by
    obtain ⟨m, rfl⟩ := Nat.exists_eq_succ_of_ne_zero (Nat.ne_of_gt hn)
    rw [Nat.succ_sub_one, Nat.succ_mul]
    omega
  have hbytes := congrArg (· * p.objPaddedSize) hrank
  simp only [Nat.add_mul ((n - 1) * p.batchCapacity + (p.batchCapacity - 1)), Nat.one_mul] at hbytes
  unfold objOffset batchTotalBytes
  rw [← Nat.mul_assoc, ← hbytes]
  omega

/-- The batches begin inside the rest of the slab and cover it. -/
theorem Valid.slabSize_le (h : p.Valid) :
    p.slabSize ≤ p.slabOffset + p.batchPerSlab * p.batchTotalBytes := by
  have hcover : p.slabSize - p.slabOffset ≤ p.batchPerSlab * p.batchTotalBytes :=
    le_roundUp _ h.batchTotalBytes_pos
  omega

theorem Valid.room (h : p.Valid) : p.acquirePerSlab * p.cacheAcquireAmount ≤ p.batchPerSlab := by
  have hbytes : p.acquirePerSlab * p.cacheAcquireAmount * p.batchTotalBytes ≤
      p.batchPerSlab * p.batchTotalBytes := by
    have hroom := p.room_le
    have hcover := h.slabSize_le
    omega
  exact Nat.le_of_mul_le_mul_right hbytes h.batchTotalBytes_pos

/-- The batches lie inside the slab exactly when they fill the rest of it. -/
theorem Valid.batches_le_iff (h : p.Valid) :
    p.slabOffset + p.batchPerSlab * p.batchTotalBytes ≤ p.slabSize ↔
      p.batchTotalBytes ∣ p.slabSize - p.slabOffset := by
  have hcover := h.slabSize_le
  have hroom := p.room_le
  constructor
  · intro hle
    have hfull : p.slabSize - p.slabOffset = p.batchPerSlab * p.batchTotalBytes := by omega
    rw [hfull]
    exact Nat.dvd_mul_left _ _
  · intro hdvd
    have hfull : p.batchPerSlab * p.batchTotalBytes = p.slabSize - p.slabOffset :=
      roundUp_eq_self h.batchTotalBytes_pos hdvd
    omega

theorem Valid.not_batchesFit (h : p.Valid) (hdvd : ¬ p.batchTotalBytes ∣ p.slabSize - p.slabOffset) :
    ¬ p.BatchesFit := by
  intro hfit
  apply hdvd
  rw [← h.batches_le_iff]
  have hpos : 0 < p.batchPerSlab :=
    Nat.lt_of_lt_of_le (Nat.mul_pos h.acquirePerSlab h.cacheAcquireAmount) h.room
  have hlast := hfit.inside (p.batchPerSlab - 1) (by omega) (p.batchCapacity - 1)
    (Nat.sub_lt h.batchCapacity Nat.one_pos)
  rwa [objOffset_last hpos h.batchCapacity] at hlast

/-- For all parameters, the batches fit in their slab exactly when the size of a batch divides what the header
    leaves of the slab. -/
theorem Valid.batchesFit_iff (h : p.Valid) : p.BatchesFit ↔ p.Fills := by
  constructor
  · intro hfit
    by_contra hdvd
    exact h.not_batchesFit hdvd hfit
  · intro hdvd
    have hfull := h.batches_le_iff.2 hdvd
    refine ⟨?_, ?_, h.room, ?_⟩
    · intro i _ j _ slab hslab
      exact h.aligned i j hslab
    · intro i hi j hj
      exact Nat.le_trans (objOffset_le hi hj) hfull
    · intro i hi j hj
      exact Nat.le_trans (objOffset_le hi hj) p.room_le

end SlabParams

end Jcl
