/-
Module: Jcl.Proofs.SlabMapping
Layer: Proofs
Purpose: A slab is mapped at a multiple of its size: out of a mapping of twice the size, everything before the
  first such multiple and everything after the slab is unmapped again. Masking the address of any byte of the
  slab gives the slab back.
Imports: Jcl.SlabAllocator, Jcl.Lib.WordAlign, Jcl.Proofs.Machine
Trusted boundary: none (fully proved)
Main exports: Munmaps, SlabMapped, saTrim_spec, saAlignedMmap_spec, findSlab_of_mem, alignedMmap_maps
-/
import Jcl.SlabAllocator
import Jcl.Lib.WordAlign
import Jcl.Proofs.Machine

namespace Jcl

open WordAlign

/-- Address `x` is one of the `len` addresses from `addr` on. -/
def InBlock (addr len x : Nat) : Prop := addr ≤ x ∧ x < addr + len

/-- `munmap` returns 0 for a range of whole pages inside the address space. -/
def Munmaps (munmap : Addr → UInt64 → Int) : Prop :=
  ∀ (addr : Addr) (len : UInt64), 4096 ∣ addr.toNat → 0 < len.toNat → addr.toNat + len.toNat ≤ 2 ^ 64 →
    munmap addr len = 0

/-- What is to hold of the slab at `slab` in a mapping from `raw` on, after the calls of `munmap`. -/
structure SlabMapped (conf : SaConfig) (raw slab : Addr) (unmapped : List Unmapped) : Prop where
  aligned : conf.slabSize.toNat ∣ slab.toNat
  inside : raw.toNat ≤ slab.toNat ∧ slab.toNat + conf.slabSize.toNat ≤ raw.toNat + 2 * conf.slabSize.toNat
  exact : ∀ x : Nat, (∃ u ∈ unmapped, InBlock u.addr.toNat u.len.toNat x) ↔
    InBlock raw.toNat (2 * conf.slabSize.toNat) x ∧ ¬ InBlock slab.toNat conf.slabSize.toNat x
  disjoint : unmapped.Pairwise fun u v =>
    ∀ x, ¬ (InBlock u.addr.toNat u.len.toNat x ∧ InBlock v.addr.toNat v.len.toNat x)
  pages : ∀ u ∈ unmapped, 4096 ∣ u.addr.toNat ∧ 4096 ∣ u.len.toNat
  total : (unmapped.map fun u => u.len.toNat).sum = conf.slabSize.toNat
  find : ∀ obj : Addr, InBlock slab.toNat conf.slabSize.toNat obj.toNat → saAllocatorFindSlab conf obj = slab

variable {conf : SaConfig} {raw slab obj : Addr} {munmap : Addr → UInt64 → Int}

/-- Every byte of a slab that begins at a multiple of its size leads back to it. -/
theorem findSlab_of_mem (hpow : conf.slabSize.toNat.isPowerOfTwo) (haligned : conf.slabSize.toNat ∣ slab.toNat)
    (hobj : InBlock slab.toNat conf.slabSize.toNat obj.toNat) : saAllocatorFindSlab conf obj = slab := by
  obtain ⟨q, hq⟩ := haligned
  have hpos : 0 < conf.slabSize.toNat := Nat.pos_of_isPowerOfTwo hpow
  have hdiv : obj.toNat / conf.slabSize.toNat = q := by
    apply Nat.div_eq_of_lt_le
    · rw [Nat.mul_comm, ← hq]
      exact hobj.1
    · rw [Nat.add_mul, Nat.one_mul, Nat.mul_comm, ← hq]
      exact hobj.2
  apply UInt64.toNat_inj.1
  rw [saAllocatorFindSlab, toNat_maskDown obj hpow, hdiv, hq, Nat.mul_comm]

/-- The first address in the mapping that is a multiple of the slab size. -/
def alignedBlock (conf : SaConfig) (raw : Addr) : Addr := UInt64.ofNat (roundUp raw.toNat conf.slabSize.toNat)

/-- The block and its end as numbers, where the mapping does not reach the end of the address space. -/
theorem toNat_alignedBlock (hpow : conf.slabSize.toNat.isPowerOfTwo)
    (hfit : raw.toNat + 2 * conf.slabSize.toNat < 2 ^ 64) :
    (alignedBlock conf raw).toNat = roundUp raw.toNat conf.slabSize.toNat ∧
      (alignedBlock conf raw + conf.slabSize).toNat =
        roundUp raw.toNat conf.slabSize.toNat + conf.slabSize.toNat := by
  have hlt := roundUp_lt raw.toNat (Nat.pos_of_isPowerOfTwo hpow)
  have hslab : (alignedBlock conf raw).toNat = roundUp raw.toNat conf.slabSize.toNat := by
    rw [alignedBlock, UInt64.toNat_ofNat', Nat.mod_eq_of_lt (by omega)]
  refine ⟨hslab, ?_⟩
  rw [UInt64.toNat_add, hslab, Nat.mod_eq_of_lt (by omega)]

section

variable [Build]

/-- A trim that `munmap` can do unmaps its range, if there is one. -/
theorem saTrim_spec (hmunmap : Munmaps munmap) {addr : Addr} {len : UInt64} (haddr : 4096 ∣ addr.toNat)
    (hfit : addr.toNat + len.toNat ≤ 2 ^ 64) :
    saTrim munmap addr len = .ok (if len = 0 then [] else [{ addr := addr, len := len }]) := by
  by_cases hzero : len = 0
  · simp [saTrim, hzero]
    rfl
  · have hlen : 0 < len.toNat := Nat.pos_of_ne_zero fun h => hzero (UInt64.toNat_inj.1 h)
    have hpos : len > 0 := UInt64.lt_iff_toNat_lt.2 hlen
    have hret := hmunmap addr len haddr hlen hfit
    simp only [saTrim, hpos, if_true, hret, decide_true, assert_true, hzero, if_false]
    rfl

/-- The block begins at the first multiple of the slab size in the mapping. -/
theorem saAlignedMmap_spec {mmap : UInt64 → Option Addr} (hpow : conf.slabSize.toNat.isPowerOfTwo)
    (hpage : 4096 ∣ conf.slabSize.toNat) (hraw : 4096 ∣ raw.toNat)
    (hfit : raw.toNat + 2 * conf.slabSize.toNat < 2 ^ 64) (hmmap : mmap (conf.slabSize * 2) = some raw)
    (hmunmap : Munmaps munmap) :
    ∃ leading trailing : UInt64,
      leading.toNat = roundUp raw.toNat conf.slabSize.toNat - raw.toNat ∧
      trailing.toNat = raw.toNat + conf.slabSize.toNat - roundUp raw.toNat conf.slabSize.toNat ∧
      saAlignedMmap mmap munmap conf .ok =
        .ok (alignedBlock conf raw,
          (if leading = 0 then [] else [{ addr := raw, len := leading }]) ++
            (if trailing = 0 then [] else
              [{ addr := alignedBlock conf raw + conf.slabSize,
                 len := trailing }]), .ok) := by
  have hpos : 0 < conf.slabSize.toNat := Nat.pos_of_isPowerOfTwo hpow
  have hle := le_roundUp raw.toNat hpos
  have hlt := roundUp_lt raw.toNat hpos
  have hdvd := dvd_roundUp raw.toNat conf.slabSize.toNat
  have hpageSlab : 4096 ∣ roundUp raw.toNat conf.slabSize.toNat := Nat.dvd_trans hpage hdvd
  have haligned : (raw + conf.slabSize - 1) &&& ~~~(conf.slabSize - 1) =
      alignedBlock conf raw := by
    have hmask := maskUp_ofNat raw.toNat hpow
    rwa [UInt64.ofNat_toNat] at hmask
  -- The two ends of the mapping and the trims, as numbers.
  obtain ⟨hslab, hslabEnd⟩ := toNat_alignedBlock hpow hfit
  have hdouble : (2 * conf.slabSize).toNat = 2 * conf.slabSize.toNat := by
    rw [UInt64.toNat_mul, show (2 : UInt64).toNat = 2 from rfl, Nat.mod_eq_of_lt (by omega)]
  have hend : (raw + 2 * conf.slabSize).toNat = raw.toNat + 2 * conf.slabSize.toNat := by
    rw [UInt64.toNat_add, hdouble, Nat.mod_eq_of_lt (by omega)]
  have hleading : (alignedBlock conf raw - raw).toNat =
      roundUp raw.toNat conf.slabSize.toNat - raw.toNat := by
    rw [UInt64.toNat_sub_of_le _ _ (UInt64.le_iff_toNat_le.2 (by omega)), hslab]
  have htrailing : (raw + 2 * conf.slabSize -
      (alignedBlock conf raw + conf.slabSize)).toNat =
      raw.toNat + conf.slabSize.toNat - roundUp raw.toNat conf.slabSize.toNat := by
    rw [UInt64.toNat_sub_of_le _ _ (UInt64.le_iff_toNat_le.2 (by omega)), hend, hslabEnd]
    omega
  have hmod : ∀ {x y : UInt64}, y.toNat ∣ x.toNat → x % y = 0 := by
    intro x y hxy
    apply UInt64.toNat_inj.1
    rw [UInt64.toNat_mod]
    exact Nat.mod_eq_zero_of_dvd hxy
  refine ⟨_, _, hleading, htrailing, ?_⟩
  have hassertRaw : raw % pageSize = 0 := hmod hraw
  have hassertSlab : alignedBlock conf raw % conf.slabSize = 0 :=
    hmod (hslab.symm ▸ hdvd)
  have hassertLeading : (alignedBlock conf raw - raw) % pageSize = 0 := by
    apply hmod
    rw [hleading]
    exact Nat.dvd_sub hpageSlab hraw
  have hassertTrailing : (raw + 2 * conf.slabSize -
      (alignedBlock conf raw + conf.slabSize)) % pageSize = 0 := by
    apply hmod
    rw [htrailing]
    exact Nat.dvd_sub (Nat.dvd_add hraw hpage) hpageSlab
  have hpositive : conf.slabSize > 0 := UInt64.lt_iff_toNat_lt.2 hpos
  have hleadingFit : raw.toNat + (alignedBlock conf raw - raw).toNat ≤ 2 ^ 64 := by
    omega
  have htrailingFit : (alignedBlock conf raw + conf.slabSize).toNat +
      (raw + 2 * conf.slabSize -
        (alignedBlock conf raw + conf.slabSize)).toNat ≤ 2 ^ 64 := by
    omega
  have hleadingTrim := saTrim_spec hmunmap hraw hleadingFit
  have htrailingTrim := saTrim_spec hmunmap (hslabEnd.symm ▸ Nat.dvd_add hpageSlab hpage) htrailingFit
  unfold saAlignedMmap
  simp only [hpositive, decide_true, assert_true, hmmap, ne_eq, not_true, if_false, haligned, hassertRaw,
    hassertSlab, hassertLeading, hassertTrailing, hleadingTrim, htrailingTrim, bind, Except.bind, pure,
    Except.pure]

/-- For every size of slab and every mapping, the slab is mapped as it should be and its objects lead back to
    it. -/
theorem alignedMmap_maps {mmap : UInt64 → Option Addr} (hpow : conf.slabSize.toNat.isPowerOfTwo)
    (hpage : 4096 ∣ conf.slabSize.toNat) (hraw : 4096 ∣ raw.toNat)
    (hfit : raw.toNat + 2 * conf.slabSize.toNat < 2 ^ 64) (hmmap : mmap (conf.slabSize * 2) = some raw)
    (hmunmap : Munmaps munmap) :
    ∃ slab unmapped, saAlignedMmap mmap munmap conf .ok = .ok (slab, unmapped, .ok) ∧
      SlabMapped conf raw slab unmapped := by
  obtain ⟨leading, trailing, hleading, htrailing, hrun⟩ :=
    saAlignedMmap_spec hpow hpage hraw hfit hmmap hmunmap
  refine ⟨_, _, hrun, ?_⟩
  have hpos : 0 < conf.slabSize.toNat := Nat.pos_of_isPowerOfTwo hpow
  have hle := le_roundUp raw.toNat hpos
  have hlt := roundUp_lt raw.toNat hpos
  have hdvd := dvd_roundUp raw.toNat conf.slabSize.toNat
  have hpageSlab : 4096 ∣ roundUp raw.toNat conf.slabSize.toNat := Nat.dvd_trans hpage hdvd
  obtain ⟨hslab, hslabEnd⟩ := toNat_alignedBlock hpow hfit
  have htrailingPos : trailing ≠ 0 := by
    rintro rfl
    rw [UInt64.toNat_zero] at htrailing
    omega
  have hpageTrailing : 4096 ∣ trailing.toNat :=
    htrailing ▸ Nat.dvd_sub (Nat.dvd_add hraw hpage) hpageSlab
  have hpageEnd : 4096 ∣ (alignedBlock conf raw + conf.slabSize).toNat :=
    hslabEnd ▸ Nat.dvd_add hpageSlab hpage
  have hpageLeading : 4096 ∣ leading.toNat := hleading ▸ Nat.dvd_sub hpageSlab hraw
  have haligned : conf.slabSize.toNat ∣ (alignedBlock conf raw).toNat :=
    hslab.symm ▸ hdvd
  have hfind := fun obj => @findSlab_of_mem conf _ obj hpow haligned
  rw [if_neg htrailingPos]
  by_cases hzero : leading = 0
  · have hleadingZero : leading.toNat = 0 := congrArg UInt64.toNat hzero
    rw [if_pos hzero, List.nil_append]
    refine ⟨haligned, by omega, ?_, List.pairwise_singleton _ _, ?_, ?_, hfind⟩
    · intro x
      simp only [List.mem_singleton, exists_eq_left, InBlock, hslabEnd, hslab]
      omega
    · simp only [List.mem_singleton, forall_eq]
      exact ⟨hpageEnd, hpageTrailing⟩
    · simp only [List.map_cons, List.map_nil, List.sum_cons, List.sum_nil]
      omega
  · rw [if_neg hzero, List.singleton_append]
    refine ⟨haligned, by omega, ?_, ?_, ?_, ?_, hfind⟩
    · intro x
      simp only [List.mem_cons, List.not_mem_nil, or_false, exists_eq_or_imp, exists_eq_left, InBlock, hslabEnd,
        hslab]
      omega
    · simp only [List.pairwise_cons, List.mem_singleton, forall_eq, List.not_mem_nil, IsEmpty.forall_iff,
        implies_true, List.Pairwise.nil, and_true, InBlock, hslabEnd]
      intro x
      omega
    · simp only [List.mem_cons, List.not_mem_nil, or_false, forall_eq_or_imp, forall_eq]
      exact ⟨⟨hraw, hpageLeading⟩, hpageEnd, hpageTrailing⟩
    · simp only [List.map_cons, List.map_nil, List.sum_cons, List.sum_nil]
      omega

/-- A slab is created with its header at the block, where the mapping succeeds. -/
theorem saSlabCreate_spec {mmap : UInt64 → Option Addr} {unmapped : List Unmapped}
    (h : saAlignedMmap mmap munmap conf .ok = .ok (slab, unmapped, .ok)) (newSlabId : UInt64) :
    saSlabCreate mmap munmap conf newSlabId .ok =
      .ok (some (slab, { id := newSlabId, usedCount := 0 }), unmapped, .ok) := by
  unfold saSlabCreate
  rw [h]
  rfl

end

/-- A slab of two pages in a mapping that begins at an odd page. -/
theorem alignedMmap_maps_two_pages :
    letI : Build := ⟨true⟩
    ∃ slab unmapped,
      saAlignedMmap (fun _ => some 0x3000) (fun _ _ => 0) ⟨8, 8, 8192, 16, 0, 1, 1, 1, 1, 1, 1⟩ .ok =
        .ok (slab, unmapped, .ok) ∧
      SlabMapped ⟨8, 8, 8192, 16, 0, 1, 1, 1, 1, 1, 1⟩ 0x3000 slab unmapped := by
  let : Build := ⟨true⟩
  exact alignedMmap_maps (by decide) (by decide) (by decide) (by decide) rfl fun _ _ _ _ _ => rfl

end Jcl
