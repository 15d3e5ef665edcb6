/-
Module: Jcl.Proofs.SlabConfig
Layer: Proofs
Purpose: What `sa_config_init` computes and what it accepts. Its words are those of the unbounded layout, and the
  doubling loop ends at the least power of two. The batches that it counts fit in their slab exactly when they fill
  it. The check of the slab size is the wrong way around: a slab that is large enough is refused, so no workable
  configuration is accepted.
Imports: Jcl.SlabAllocator, Jcl.Proofs.Machine, Jcl.Proofs.SlabLayout
Trusted boundary: none (fully proved)
Main exports: SaAllocatorConfig.params, Workable, Accepts, saPagesPerSlab_spec, saConfigSizes_spec,
  saSlabSizeNeeded_spec, saBatchPerSlab_spec, Configured.spec, batches_fit_iff, saConfigInit_badConf,
  workable_refused
-/
import Jcl.SlabAllocator
import Jcl.Proofs.Machine
import Jcl.Proofs.SlabLayout

namespace Jcl

open WordAlign

/-! ### Workable configurations -/

/-- A field as it is requested, or its default. -/
def effective (requested fallback : UInt32) : UInt32 := orDefault requested requested fallback

/-- The parameters of the slab, with the defaults filled in. -/
def SaAllocatorConfig.params (c : SaAllocatorConfig) : SlabParams where
  objSize := c.objSize.toNat
  objAlign := c.objAlign.toNat
  batchCapacity := (effective c.batchCapacity 64).toNat
  cacheAcquireAmount := (effective c.cacheAcquireAmount 1).toNat
  acquirePerSlab := (effective c.slabAcquireCount 8).toNat

/-- A configuration that can work: amounts that the stores have room for, a slab whose size fits in a word, and no
    more whole batches in it than the store of the allocator has room for. -/
structure Workable (c : SaAllocatorConfig) : Prop where
  align : c.objAlign.toNat.isPowerOfTwo
  acquire_cache : effective c.cacheAcquireAmount 1 ≤ effective c.cacheStoreCapacity 2
  release_cache : effective c.cacheReleaseAmount 1 ≤ effective c.cacheStoreCapacity 2
  acquire_alloc : effective c.cacheAcquireAmount 1 ≤ effective c.allocStoreCapacity 4
  release_alloc : effective c.cacheReleaseAmount 1 ≤ effective c.allocStoreCapacity 4
  fits : c.params.slabSize < 2 ^ 64
  batches : (c.params.slabSize - c.params.slabOffset) / c.params.batchTotalBytes ≤
    (effective c.allocStoreCapacity 4).toNat

/-- `sa_config_init` accepts the configuration: it ends with no error, every capacity and amount is the one that
    was asked for, and the slab is the smallest power of two of pages that is large enough. -/
def Accepts [Build] (confInit : SaConfig) (c : SaAllocatorConfig) : Prop :=
  ∃ conf, saConfigInit confInit c .ok = .ok (conf, .ok) ∧
    conf.batchCapacity = effective c.batchCapacity 64 ∧
    conf.cacheAcquireAmount = effective c.cacheAcquireAmount 1 ∧
    conf.cacheReleaseAmount = effective c.cacheReleaseAmount 1 ∧
    conf.cacheStoreCapacity = effective c.cacheStoreCapacity 2 ∧
    conf.allocStoreCapacity = effective c.allocStoreCapacity 4 ∧
    (∃ k, conf.slabSize.toNat = 2 ^ k * 4096) ∧ c.params.slabSizeNeeded ≤ conf.slabSize.toNat ∧
    ∀ k, c.params.slabSizeNeeded ≤ 2 ^ k * 4096 → conf.slabSize.toNat ≤ 2 ^ k * 4096

/-! ### Words and numbers -/

/-- The doubling loop ends at the least power of two that is not below what is needed. -/
theorem saPagesPerSlab_spec {minPages : UInt64} (hmin : minPages.toNat ≤ 2 ^ 63) {rounds k : Nat}
    (hrounds : rounds + k = 65) (hk : 2 ^ k ≤ ceilPow2 minPages.toNat) :
    saPagesPerSlab minPages rounds (UInt64.ofNat (2 ^ k)) = .ok (UInt64.ofNat (ceilPow2 minPages.toNat)) := by
  have hceil : ceilPow2 minPages.toNat ≤ 2 ^ 63 := ceilPow2_least ⟨63, rfl⟩ hmin
  have hkle : k ≤ 63 := (Nat.pow_le_pow_iff_right (by omega)).1 (Nat.le_trans hk hceil)
  have hword : (UInt64.ofNat (2 ^ k)).toNat = 2 ^ k := by
    rw [UInt64.toNat_ofNat', Nat.mod_eq_of_lt]
    exact Nat.lt_of_le_of_lt (Nat.pow_le_pow_right (by omega) hkle) (by omega)
  induction rounds generalizing k with
  | zero => omega
  | succ rounds ih =>
      unfold saPagesPerSlab
      by_cases hlt : 2 ^ k < minPages.toNat
      · have hmore : UInt64.ofNat (2 ^ k) < minPages := by
          rw [UInt64.lt_iff_toNat_lt, hword]
          exact hlt
        have hdouble : UInt64.ofNat (2 ^ k) * 2 = UInt64.ofNat (2 ^ (k + 1)) := by
          rw [Nat.pow_succ, UInt64.ofNat_mul]
          rfl
        have hnext : 2 ^ (k + 1) ≤ ceilPow2 minPages.toNat := by
          obtain ⟨m, hm⟩ := isPowerOfTwo_ceilPow2 minPages.toNat
          have hle := le_ceilPow2 minPages.toNat
          rw [hm] at hle ⊢
          have hkm : k < m := (Nat.pow_lt_pow_iff_right (by omega)).1 (Nat.lt_of_lt_of_le hlt hle)
          exact Nat.pow_le_pow_right (by omega) hkm
        have hkle' : k + 1 ≤ 63 := (Nat.pow_le_pow_iff_right (by omega)).1 (Nat.le_trans hnext hceil)
        have hword' : (UInt64.ofNat (2 ^ (k + 1))).toNat = 2 ^ (k + 1) := by
          rw [UInt64.toNat_ofNat', Nat.mod_eq_of_lt]
          exact Nat.lt_of_le_of_lt (Nat.pow_le_pow_right (by omega) hkle') (by omega)
        rw [if_pos hmore, hdouble]
        exact ih (by omega) hnext hkle' hword'
      · have hdone : ¬ UInt64.ofNat (2 ^ k) < minPages := by
          rw [UInt64.lt_iff_toNat_lt, hword]
          exact hlt
        have hlast : ceilPow2 minPages.toNat = 2 ^ k :=
          Nat.le_antisymm (ceilPow2_least ⟨k, rfl⟩ (Nat.le_of_not_lt hlt)) hk
        rw [if_neg hdone, hlast]

/-- A rounded size is a multiple of the alignment, even where it wraps. -/
theorem saRoundUp_mod {align : UInt64} (halign : align.toNat.isPowerOfTwo) (n : Nat) :
    UInt64.ofNat (roundUp n align.toNat) % align = 0 := by
  apply UInt64.toNat_inj.1
  rw [UInt64.toNat_mod, UInt64.toNat_ofNat']
  exact Nat.mod_eq_zero_of_dvd ((Nat.dvd_mod_iff (isPowerOfTwo_dvd_word halign)).2 (dvd_roundUp _ _))

variable {c : SaAllocatorConfig} {conf : SaConfig}

/-- The size that is needed is that of the layout, modulo the word size. -/
theorem saSlabSizeNeeded_spec (hbatch : conf.batchCapacity = effective c.batchCapacity 64)
    (hacquire : conf.cacheAcquireAmount = effective c.cacheAcquireAmount 1)
    (hpadded : conf.objPaddedSize = UInt64.ofNat c.params.objPaddedSize)
    (hoffset : conf.slabOffset = UInt64.ofNat c.params.slabOffset) :
    saSlabSizeNeeded (saAcquirePerSlab c) conf = UInt64.ofNat c.params.slabSizeNeeded := by
  have hcount : saAcquirePerSlab c = (effective c.slabAcquireCount 8).toUInt64 := rfl
  rw [saSlabSizeNeeded, hcount, hbatch, hacquire, hpadded, hoffset, SlabParams.slabSizeNeeded]
  simp only [SaAllocatorConfig.params, UInt64.ofNat_add, UInt64.ofNat_mul, UInt64.ofNat_uInt32ToNat]

/-- Where the slab fits in a word, the doubling loop comes to its pages. -/
theorem saPagesPerSlab_layout (hfits : c.params.slabSize < 2 ^ 64) :
    saPagesPerSlab (saMinPagesNeeded (UInt64.ofNat c.params.slabSizeNeeded)) 65 1 =
      .ok (UInt64.ofNat (ceilPow2 c.params.minPagesNeeded)) := by
  have hle := c.params.slabSizeNeeded_le
  have hpages : c.params.slabSize = ceilPow2 c.params.minPagesNeeded * 4096 := rfl
  -- The pages that are needed do not wrap either, since the slab is whole pages.
  have hminPages : (saMinPagesNeeded (UInt64.ofNat c.params.slabSizeNeeded)).toNat = c.params.minPagesNeeded := by
    have hsum : UInt64.ofNat c.params.slabSizeNeeded + pageSize - 1 =
        UInt64.ofNat (c.params.slabSizeNeeded + 4096 - 1) := by
      rw [Nat.add_sub_assoc (by omega), UInt64.ofNat_add, UInt64.sub_eq_add_neg, UInt64.add_assoc]
      rfl
    rw [saMinPagesNeeded, hsum, UInt64.toNat_div, UInt64.toNat_ofNat', Nat.mod_eq_of_lt (by omega)]
    rfl
  have hmin : c.params.minPagesNeeded ≤ 2 ^ 63 := by
    have hceil := le_ceilPow2 c.params.minPagesNeeded
    omega
  have hone : 2 ^ 0 ≤ ceilPow2 c.params.minPagesNeeded := Nat.pos_of_isPowerOfTwo (isPowerOfTwo_ceilPow2 _)
  have hspec := @saPagesPerSlab_spec _ (hminPages.symm ▸ hmin) 65 0 rfl (hminPages.symm ▸ hone)
  rwa [hminPages] at hspec

theorem effective_pos {requested fallback : UInt32} (h : fallback ≠ 0) : 0 < (effective requested fallback).toNat := by
  have hne : effective requested fallback ≠ 0 := by
    unfold effective orDefault
    split
    · assumption
    · exact h
  exact Nat.pos_of_ne_zero fun hzero => hne (UInt32.toNat_inj.1 hzero)

/-- With its defaults filled in, a configuration has the parameters of a slab. -/
theorem params_valid (halign : c.objAlign.toNat.isPowerOfTwo) : c.params.Valid :=
  ⟨halign, effective_pos (by decide), effective_pos (by decide), effective_pos (by decide)⟩

/-- The number of batches is that of the layout, where the slab fits in a word. -/
theorem saBatchPerSlab_spec (halign : c.objAlign.toNat.isPowerOfTwo) (hfits : c.params.slabSize < 2 ^ 64)
    (hbatch : conf.batchCapacity = effective c.batchCapacity 64)
    (hpadded : conf.objPaddedSize = UInt64.ofNat c.params.objPaddedSize)
    (hoffset : conf.slabOffset = UInt64.ofNat c.params.slabOffset)
    (hsize : conf.slabSize = UInt64.ofNat c.params.slabSize) :
    (saBatchPerSlab conf).toNat = c.params.batchPerSlab := by
  have hvalid := params_valid halign
  have htotal : saBatchTotalBytes conf = UInt64.ofNat c.params.batchTotalBytes := by
    rw [saBatchTotalBytes, hbatch, hpadded, SlabParams.batchTotalBytes, UInt64.ofNat_mul,
      ← UInt64.ofNat_uInt32ToNat]
    rfl
  -- One batch fits, and the slab takes at most half of the address space.
  have hroom := c.params.room_le
  have hone : 1 * c.params.batchTotalBytes ≤
      c.params.acquirePerSlab * c.params.cacheAcquireAmount * c.params.batchTotalBytes :=
    Nat.mul_le_mul_right _ (Nat.mul_pos hvalid.acquirePerSlab hvalid.cacheAcquireAmount)
  rw [Nat.one_mul] at hone
  have hpos := hvalid.batchTotalBytes_pos
  have hhalf : c.params.slabSize ≤ 2 ^ 63 := by
    obtain ⟨k, hk⟩ := c.params.isPowerOfTwo_slabSize
    rw [hk] at hfits ⊢
    have hlt : k < 64 := (Nat.pow_lt_pow_iff_right (by omega)).1 hfits
    exact Nat.pow_le_pow_right (by omega) (by omega)
  have hrest : UInt64.ofNat c.params.slabSize - UInt64.ofNat c.params.slabOffset +
      UInt64.ofNat c.params.batchTotalBytes - 1 =
      UInt64.ofNat (c.params.slabSize - c.params.slabOffset + c.params.batchTotalBytes - 1) := by
    rw [Nat.add_sub_assoc hpos, UInt64.ofNat_add, UInt64.ofNat_sub hpos, UInt64.ofNat_sub (by omega),
      UInt64.sub_eq_add_neg _ 1, UInt64.add_assoc, ← UInt64.sub_eq_add_neg]
    rfl
  rw [saBatchPerSlab, htotal, hsize, hoffset, hrest, UInt64.toNat_div, UInt64.toNat_ofNat', UInt64.toNat_ofNat',
    Nat.mod_eq_of_lt (by omega), Nat.mod_eq_of_lt (by omega)]
  rfl

/-- `sa_slab_link_batches` goes through every object of every batch. -/
theorem mem_saSlabLinkBatches {i j : Nat} :
    (i, j) ∈ saSlabLinkBatches conf ↔ i < conf.batchPerSlab.toNat ∧ j < conf.batchCapacity.toNat := by
  simp [saSlabLinkBatches]

section

variable [Build]

/-- The sizes that are rounded first are those of the layout, modulo the word size, and no assert fails. -/
theorem saConfigSizes_spec (halign : c.objAlign.toNat.isPowerOfTwo) (hconf : conf.objAlign = c.objAlign) :
    saConfigSizes conf c = .ok { conf with
      objPaddedSize := UInt64.ofNat c.params.objPaddedSize
      slabOffset := UInt64.ofNat c.params.slabOffset } := by
  have hsize : (if c.objSize > saMinObjSize then c.objSize else saMinObjSize) =
      UInt64.ofNat (max c.objSize.toNat 8) := by
    by_cases hlarge : c.objSize > saMinObjSize
    · have hle : 8 ≤ c.objSize.toNat := Nat.le_of_lt (UInt64.lt_iff_toNat_lt.1 hlarge)
      rw [if_pos hlarge, Nat.max_eq_left hle, UInt64.ofNat_toNat]
    · have hle : c.objSize.toNat ≤ 8 := Nat.le_of_not_lt fun h => hlarge (UInt64.lt_iff_toNat_lt.2 h)
      rw [if_neg hlarge, Nat.max_eq_right hle]
      rfl
  have hpadded : saRoundUp (UInt64.ofNat (max c.objSize.toNat 8)) c.objAlign =
      UInt64.ofNat c.params.objPaddedSize := maskUp_ofNat _ halign
  have hoffset : saRoundUp sizeofSaSlab c.objAlign = UInt64.ofNat c.params.slabOffset := maskUp_ofNat 16 halign
  have hpaddedMod : UInt64.ofNat c.params.objPaddedSize % c.objAlign = 0 := saRoundUp_mod halign _
  have hoffsetMod : UInt64.ofNat c.params.slabOffset % c.objAlign = 0 := saRoundUp_mod halign _
  unfold saConfigSizes
  simp only [hsize, hconf, hpadded, hoffset, hpaddedMod, hoffsetMod, decide_true, assert_true, bind, Except.bind,
    pure, Except.pure]

/-- The slab that is computed for a layout that fits in a word is large enough, and refused for it. -/
theorem saConfigSlab_badConf (hbatch : conf.batchCapacity = effective c.batchCapacity 64)
    (hacquire : conf.cacheAcquireAmount = effective c.cacheAcquireAmount 1)
    (hpadded : conf.objPaddedSize = UInt64.ofNat c.params.objPaddedSize)
    (hoffset : conf.slabOffset = UInt64.ofNat c.params.slabOffset)
    (hfits : c.params.slabSize < 2 ^ 64) (err : JclErr) :
    ∃ conf', saConfigSlab conf c err = .ok (conf', .badConf) := by
  have hneeded := saSlabSizeNeeded_spec hbatch hacquire hpadded hoffset
  have hle := c.params.slabSizeNeeded_le
  have hpages : c.params.slabSize = ceilPow2 c.params.minPagesNeeded * 4096 := rfl
  have hneededWord : (UInt64.ofNat c.params.slabSizeNeeded).toNat = c.params.slabSizeNeeded := by
    rw [UInt64.toNat_ofNat', Nat.mod_eq_of_lt (by omega)]
  have hlarge : UInt64.ofNat (ceilPow2 c.params.minPagesNeeded) * pageSize ≥
      UInt64.ofNat c.params.slabSizeNeeded := by
    have hsize : UInt64.ofNat (ceilPow2 c.params.minPagesNeeded) * pageSize = UInt64.ofNat c.params.slabSize := by
      rw [hpages, UInt64.ofNat_mul]
      rfl
    rw [hsize, ge_iff_le, UInt64.le_iff_toNat_le, hneededWord, UInt64.toNat_ofNat', Nat.mod_eq_of_lt hfits]
    exact hle
  unfold saConfigSlab
  simp only [hneeded, bind, Except.bind, pure, Except.pure]
  split
  · exact ⟨_, rfl⟩
  · simp only [saPagesPerSlab_layout hfits, hlarge, if_true]
    exact ⟨_, rfl⟩

/-- Every configuration with a slab that fits in a word ends with `JFS_ERR_BAD_CONF`. -/
theorem saConfigInit_badConf (halign : c.objAlign.toNat.isPowerOfTwo) (hfits : c.params.slabSize < 2 ^ 64)
    (confInit : SaConfig) (err : JclErr) : ∃ conf, saConfigInit confInit c err = .ok (conf, .badConf) := by
  obtain ⟨hne, htest⟩ := (testPow2_iff c.objAlign).2 halign
  rw [UInt64.and_comm] at htest
  have hsizes := @saConfigSizes_spec c { confInit with objAlign := c.objAlign } _ halign rfl
  unfold saConfigInit
  simp only [hne, if_false, htest, ne_eq, not_true, hsizes, bind, Except.bind, pure, Except.pure]
  split
  · exact ⟨_, rfl⟩
  · exact saConfigSlab_badConf rfl rfl rfl rfl hfits err

/-! ### The batches of a slab -/

/-- The words of a configuration are the numbers of its layout, where the slab fits in a word. -/
theorem Configured.spec (h : Configured c conf) (halign : c.objAlign.toNat.isPowerOfTwo)
    (hfits : c.params.slabSize < 2 ^ 64) : conf.objAlign.toNat = c.params.objAlign ∧
      conf.objPaddedSize.toNat = c.params.objPaddedSize ∧ conf.slabOffset.toNat = c.params.slabOffset ∧
      conf.slabSize.toNat = c.params.slabSize ∧ conf.batchCapacity.toNat = c.params.batchCapacity ∧
      conf.batchPerSlab.toNat = c.params.batchPerSlab := by
  obtain ⟨confInit, sized, pages, hsizes, hpages, rfl⟩ := h
  rw [saConfigSizes_spec halign rfl] at hsizes
  cases hsizes
  rw [saSlabSizeNeeded_spec rfl rfl rfl rfl, saPagesPerSlab_layout hfits] at hpages
  cases hpages
  have hvalid := params_valid halign
  have hone : 1 * c.params.batchTotalBytes ≤
      c.params.acquirePerSlab * c.params.cacheAcquireAmount * c.params.batchTotalBytes :=
    Nat.mul_le_mul_right _ (Nat.mul_pos hvalid.acquirePerSlab hvalid.cacheAcquireAmount)
  have hobj : 1 * c.params.objPaddedSize ≤ c.params.batchCapacity * c.params.objPaddedSize :=
    Nat.mul_le_mul_right _ hvalid.batchCapacity
  have hroom := c.params.room_le
  have hsize : UInt64.ofNat (ceilPow2 c.params.minPagesNeeded) * pageSize = UInt64.ofNat c.params.slabSize := by
    rw [SlabParams.slabSize, UInt64.ofNat_mul]
    rfl
  unfold SlabParams.batchTotalBytes at hone hroom
  refine ⟨rfl, ?_, ?_, ?_, rfl, saBatchPerSlab_spec halign hfits rfl rfl rfl hsize⟩
  · exact Nat.mod_eq_of_lt (by omega)
  · exact Nat.mod_eq_of_lt (by omega)
  · rw [hsize]
    exact Nat.mod_eq_of_lt hfits

/-- Where the slab fits in a word, `sa_config_init` has no way to stop before `slab_size` but its checks. -/
theorem exists_configured (halign : c.objAlign.toNat.isPowerOfTwo) (hfits : c.params.slabSize < 2 ^ 64) :
    ∃ conf, Configured c conf := by
  have hsizes := @saConfigSizes_spec c ⟨c.objAlign, 0, 0, 0, 0, 0, 0, 0, 0, 0, 0⟩ _ halign rfl
  refine ⟨_, ⟨c.objAlign, 0, 0, 0, 0, 0, 0, 0, 0, 0, 0⟩, _, UInt64.ofNat (ceilPow2 c.params.minPagesNeeded), hsizes,
    ?_, rfl⟩
  rw [saSlabSizeNeeded_spec rfl rfl rfl rfl]
  exact saPagesPerSlab_layout hfits

/-- What is accepted went through all of this. -/
theorem configured_of_accepted {confInit : SaConfig} (h : saConfigInit confInit c .ok = .ok (conf, .ok)) :
    Configured c conf := by
  unfold saConfigInit saConfigSlab at h
  simp only [bind, Except.bind, pure, Except.pure] at h
  -- Every check on the way was passed, and no assert stopped the call.
  split at h
  · cases h
  split at h
  · cases h
  split at h
  · cases h
  rename_i sized hsizes
  split at h
  · cases h
  split at h
  · cases h
  split at h
  · cases h
  rename_i pages hpages
  split at h
  · cases h
  split at h
  · cases h
  split at h
  · cases h
  split at h
  · cases h
  split at h
  · cases h
  cases h
  exact ⟨confInit, sized, pages, hsizes, hpages, rfl⟩

/-- The words fit in the slab as the numbers do. -/
theorem Configured.batchesFit_iff (h : Configured c conf) (halign : c.objAlign.toNat.isPowerOfTwo)
    (hfits : c.params.slabSize < 2 ^ 64) :
    conf.BatchesFit (c.params.acquirePerSlab * c.params.cacheAcquireAmount) ↔ c.params.BatchesFit := by
  obtain ⟨hobjAlign, hpadded, hoffset, hsize, hcapacity, hbatches⟩ := h.spec halign hfits
  have hobj : ∀ i j, conf.objOffset i j = c.params.objOffset i j := by
    intro i j
    rw [SaConfig.objOffset, SlabParams.objOffset, hoffset, hcapacity, hpadded]
  constructor
  · intro hfit
    refine ⟨fun i hi j hj => ?_, fun i hi j hj => ?_, hbatches ▸ hfit.room, fun i hi j hj => ?_⟩
    · have haligned := hfit.aligned i j (mem_saSlabLinkBatches.2 ⟨hbatches.symm ▸ hi, hcapacity.symm ▸ hj⟩)
      rwa [hsize, hobjAlign, hobj] at haligned
    · have hinside := hfit.inside i j (mem_saSlabLinkBatches.2 ⟨hbatches.symm ▸ hi, hcapacity.symm ▸ hj⟩)
      rwa [hsize, hpadded, hobj] at hinside
    · have hinside := hfit.room_inside i hi j (hcapacity.symm ▸ hj)
      rwa [hsize, hpadded, hobj] at hinside
  · intro hfit
    refine ⟨fun i j hround => ?_, fun i j hround => ?_, hbatches.symm ▸ hfit.room, fun i hi j hj => ?_⟩
    · obtain ⟨hi, hj⟩ := mem_saSlabLinkBatches.1 hround
      rw [hsize, hobjAlign, hobj]
      exact hfit.aligned i (hbatches ▸ hi) j (hcapacity ▸ hj)
    · obtain ⟨hi, hj⟩ := mem_saSlabLinkBatches.1 hround
      rw [hsize, hpadded, hobj]
      exact hfit.inside i (hbatches ▸ hi) j (hcapacity ▸ hj)
    · rw [hsize, hpadded, hobj]
      exact hfit.room_inside i hi j (hcapacity ▸ hj)

/-- For all parameters, the batches of a slab fit in it exactly when the size of a batch divides what the header leaves
    of the slab: so it is in unbounded numbers, and so it is for the words that `sa_config_init` computes and the
    rounds of `sa_slab_link_batches` over them, where the slab fits in a word. -/
theorem batches_fit_iff :
    (∀ p : SlabParams, p.Valid → (p.BatchesFit ↔ p.Fills)) ∧
      (∀ (confInit : SaConfig) (c : SaAllocatorConfig) (conf : SaConfig),
        saConfigInit confInit c .ok = .ok (conf, .ok) → Configured c conf) ∧
      ∀ (c : SaAllocatorConfig) (conf : SaConfig), Configured c conf → c.objAlign.toNat.isPowerOfTwo →
        c.params.slabSize < 2 ^ 64 →
        (conf.BatchesFit (c.params.acquirePerSlab * c.params.cacheAcquireAmount) ↔ c.params.Fills) :=
  ⟨fun _ hvalid => hvalid.batchesFit_iff, fun _ _ _ haccepted => configured_of_accepted haccepted,
    fun _ _ hconf halign hfits => (hconf.batchesFit_iff halign hfits).trans (params_valid halign).batchesFit_iff⟩

end

/-- Objects of 8 bytes in batches of one: the 4080 bytes after the header are 510 whole batches. -/
def wordsConfig : SaAllocatorConfig where
  objSize := 8
  objAlign := 8
  batchCapacity := 1
  allocStoreCapacity := 0
  cacheStoreCapacity := 0
  cacheAcquireAmount := 0
  cacheReleaseAmount := 0
  slabAcquireCount := 1

theorem batches_fit_words :
    letI : Build := ⟨true⟩
    SlabParams.BatchesFit ⟨8, 8, 1, 1, 1⟩ ∧
      ∃ conf, Configured wordsConfig conf ∧ conf.batchPerSlab.toNat = 510 ∧ conf.BatchesFit 1 := by
  let : Build := ⟨true⟩
  have hfills : SlabParams.Fills ⟨8, 8, 1, 1, 1⟩ := by
    unfold SlabParams.Fills
    decide
  obtain ⟨hnumbers, -, hwords⟩ := batches_fit_iff
  obtain ⟨conf, hconf⟩ := exists_configured (c := wordsConfig) (by decide) (by decide)
  obtain ⟨-, -, -, -, -, hbatches⟩ := hconf.spec (by decide) (by decide)
  exact ⟨(hnumbers _ ⟨by decide, by decide, by decide, by decide⟩).2 hfills, conf, hconf,
    hbatches.trans (by decide), (hwords _ _ hconf (by decide) (by decide)).2 hfills⟩

/-- Objects of 64 bytes with room for 64 batches in the store, and defaults for the rest. -/
def sampleSlabConfig : SaAllocatorConfig where
  objSize := 64
  objAlign := 8
  batchCapacity := 0
  allocStoreCapacity := 64
  cacheStoreCapacity := 0
  cacheAcquireAmount := 0
  cacheReleaseAmount := 0
  slabAcquireCount := 0

/-- In batches of 64, eight of them wanted, the 65520 bytes after the header are counted as 16 batches of 4096, and the
    last object ends 16 bytes after the slab. -/
theorem batches_overrun :
    letI : Build := ⟨true⟩
    ¬ SlabParams.BatchesFit ⟨64, 8, 64, 1, 8⟩ ∧ ∃ conf, Configured sampleSlabConfig conf ∧
      conf.slabSize.toNat = 65536 ∧ (15, 63) ∈ saSlabLinkBatches conf ∧
      conf.objOffset 15 63 + conf.objPaddedSize.toNat = 65552 ∧ ¬ conf.BatchesFit 8 := by
  let : Build := ⟨true⟩
  obtain ⟨conf, hconf⟩ := exists_configured (c := sampleSlabConfig) (by decide) (by decide)
  obtain ⟨-, hpadded, hoffset, hsize, hcapacity, hbatches⟩ := hconf.spec (by decide) (by decide)
  have hsize₁ : conf.slabSize.toNat = 65536 := hsize.trans (by decide)
  have hround : (15, 63) ∈ saSlabLinkBatches conf := by
    rw [mem_saSlabLinkBatches, hbatches, hcapacity]
    decide
  have hend : conf.objOffset 15 63 + conf.objPaddedSize.toNat = 65552 := by
    rw [SaConfig.objOffset, hoffset, hcapacity, hpadded]
    decide
  refine ⟨SlabParams.Valid.not_batchesFit ⟨by decide, by decide, by decide, by decide⟩ (by decide), conf, hconf,
    hsize₁, hround, hend, fun hfit => ?_⟩
  have hinside := hfit.inside 15 63 hround
  omega

section

variable [Build]

/-- No workable configuration is accepted. -/
theorem workable_refused (h : Workable c) (confInit : SaConfig) : ¬ Accepts confInit c := by
  rintro ⟨conf, hrun, -⟩
  obtain ⟨conf', hbad⟩ := saConfigInit_badConf h.align h.fits confInit .ok
  rw [hrun] at hbad
  cases hbad

end

theorem workable_sampleSlabConfig : Workable sampleSlabConfig :=
  ⟨by decide, by decide, by decide, by decide, by decide, by decide, by decide⟩

theorem workable_refused_sample :
    letI : Build := ⟨true⟩
    ¬ Accepts ⟨0, 0, 0, 0, 0, 0, 0, 0, 0, 0, 0⟩ sampleSlabConfig := by
  let : Build := ⟨true⟩
  exact workable_refused workable_sampleSlabConfig _

/-- The sample is workable, and is refused with `JFS_ERR_BAD_CONF`. -/
theorem sampleSlabConfig_refused :
    letI : Build := ⟨true⟩
    Workable sampleSlabConfig ∧ ¬ Accepts ⟨0, 0, 0, 0, 0, 0, 0, 0, 0, 0, 0⟩ sampleSlabConfig ∧
      ∃ conf, saConfigInit ⟨0, 0, 0, 0, 0, 0, 0, 0, 0, 0, 0⟩ sampleSlabConfig .ok = .ok (conf, .badConf) := by
  let : Build := ⟨true⟩
  have hbad := saConfigInit_badConf workable_sampleSlabConfig.align workable_sampleSlabConfig.fits
    ⟨0, 0, 0, 0, 0, 0, 0, 0, 0, 0, 0⟩ .ok
  refine ⟨workable_sampleSlabConfig, ?_, hbad⟩
  rintro ⟨conf, hrun, -⟩
  obtain ⟨conf', hbad⟩ := hbad
  rw [hrun] at hbad
  cases hbad

end Jcl
