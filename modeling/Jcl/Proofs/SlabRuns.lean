/-
Module: Jcl.Proofs.SlabRuns
Layer: Proofs
Purpose: An address space in which slabs are created in any order, for any number of configurations and with any
  errors pending. The slabs never overlap, the address of any byte of a slab leads to its header, and nothing but
  slabs stays mapped, unless a slab is asked for while an error is pending: its mapping is then lost as a whole.
Imports: Jcl.Lib.Mappings, Jcl.Lib.System, Jcl.Proofs.SlabMapping
Trusted boundary: human-reviewed spec (MapOs, SlabSys, createSlab, slabSystem, SlabsApart, SlabCall.Keeps)
Main exports: createSlab, slabSystem, SlabsApart, OnlySlabs, slabs_apart, only_slabs_iff
-/
import Jcl.Lib.Mappings
import Jcl.Lib.System
import Jcl.Proofs.SlabMapping

namespace Jcl

open Mappings (Entry Trim SharesOut UnmapsMapped mapped trimmed mapped_trims unmapsMapped_trims)
open WordAlign

/-- The answers of the system to `mmap`, by their numbers and what is mapped: whole pages that are not mapped, away
    from both ends of the address space. `munmap` unmaps whole pages. -/
structure MapOs where
  mmap : Nat → List Entry → UInt64 → Option Addr
  munmap : Addr → UInt64 → Int
  mmap_fresh : ∀ n log len raw, mmap n log len = some raw → 0 < len.toNat ∧ 4096 ∣ raw.toNat ∧
    raw.toNat + len.toNat < 2 ^ 64 ∧ Disjoint (Set.Ico raw.toNat (raw.toNat + len.toNat)) (mapped log)
  munmap_pages : Munmaps munmap

/-- The system with the number of the next `mmap`, the log of what was mapped, and the headers of the slabs. -/
structure SlabSys where
  os : MapOs
  calls : Nat
  log : List Entry
  headers : Addr → Option SaSlab

/-- A slab that was created. -/
structure Slab where
  conf : SaConfig
  addr : Addr
  id : UInt64
deriving DecidableEq, Repr

/-- The addresses of a slab. -/
def Slab.bytes (slab : Slab) : Set Nat := Set.Ico slab.addr.toNat (slab.addr.toNat + slab.conf.slabSize.toNat)

/-- A call of `sa_slab_create`, with this error in `*err`. -/
structure SlabCall where
  conf : SaConfig
  newSlabId : UInt64
  err : JclErr
deriving DecidableEq, Repr

/-- A call of `munmap` in the log. -/
def Unmapped.trim (unmapped : Unmapped) : Trim := { start := unmapped.addr.toNat, len := unmapped.len.toNat }

/-- A configuration whose slabs are a power of two of whole pages, as `sa_config_init` computes them. -/
structure SaConfig.Paged (conf : SaConfig) : Prop where
  pow : conf.slabSize.toNat.isPowerOfTwo
  pages : 4096 ∣ conf.slabSize.toNat

/-- No address is in two slabs, every slab is mapped, and from any of its bytes its header is found, as it was
    written. -/
structure SlabsApart (s : SlabSys) (slabs : List Slab) : Prop where
  apart : slabs.Pairwise fun slab slab' => Disjoint slab.bytes slab'.bytes
  mapped : ∀ slab ∈ slabs, slab.bytes ⊆ mapped s.log
  found : ∀ slab ∈ slabs, ∀ obj : Addr, obj.toNat ∈ slab.bytes → saAllocatorFindSlab slab.conf obj = slab.addr ∧
    s.headers (saAllocatorFindSlab slab.conf obj) = some { id := slab.id, usedCount := 0 }

/-- Nothing is mapped but slabs, and whatever was unmapped was mapped before, so that nothing was unmapped twice. -/
structure OnlySlabs (s : SlabSys) (slabs : List Slab) : Prop where
  only : ∀ x ∈ mapped s.log, ∃ slab ∈ slabs, x ∈ slab.bytes
  unmaps : UnmapsMapped s.log

/-- What a call asks `mmap` for. -/
def SlabCall.request (call : SlabCall) (s : SlabSys) : Option Addr :=
  s.os.mmap s.calls s.log (call.conf.slabSize * 2)

/-- Where `mmap` yields something, no error is pending. -/
def SlabCall.Keeps (call : SlabCall) (s : SlabSys) : Prop := call.request s ≠ none → call.err = .ok

section

variable [Build]

/-- `sa_slab_create` in the address space: the slab, if there is one. -/
def createSlab (s : SlabSys) (call : SlabCall) : Except Fault (Option Slab × SlabSys) := do
  let (created, unmapped, _) ←
    saSlabCreate (s.os.mmap s.calls s.log) s.os.munmap call.conf call.newSlabId call.err
  let log := match call.request s with
    | none => s.log
    | some raw => trimmed (unmapped.map Unmapped.trim) (.map raw.toNat (call.conf.slabSize * 2).toNat :: s.log)
  match created with
  | none => return (none, { s with calls := s.calls + 1, log := log })
  | some (addr, header) =>
      return (some { conf := call.conf, addr := addr, id := call.newSlabId },
        { s with calls := s.calls + 1, log := log, headers := Function.update s.headers addr (some header) })

/-- The slabs that there are after a call. -/
def performSlab (st : SlabSys × List Slab) (call : SlabCall) : Except Fault (SlabSys × List Slab) := do
  let (created, s) ← createSlab st.1 call
  return (s, created.toList ++ st.2)

/-- The runs of `sa_slab_create` from `start` on, with the slabs that were created. -/
def slabSystem (start : SlabSys) : System (SlabSys × List Slab) SlabCall where
  init st := st = (start, [])
  step st call st' := call.conf.Paged ∧ performSlab st call = .ok st'

end

variable {s s' start : SlabSys} {slabs : List Slab} {lost : List (Set Nat)} {call : SlabCall} {raw : Addr}
  {conf : SaConfig}

/-! ### One slab -/

theorem SaConfig.Paged.pos (h : conf.Paged) : 0 < conf.slabSize.toNat := Nat.pos_of_isPowerOfTwo h.pow

/-- The first address of a slab is one of its addresses. -/
theorem Slab.addr_mem {slab : Slab} (h : slab.conf.Paged) : slab.addr.toNat ∈ slab.bytes :=
  Set.left_mem_Ico.2 (Nat.lt_add_of_pos_right h.pos)

/-- A request for twice the size that does not wrap to nothing. -/
theorem toNat_double (h : conf.Paged) (hpos : 0 < (conf.slabSize * 2).toNat) :
    (conf.slabSize * 2).toNat = 2 * conf.slabSize.toNat := by
  obtain ⟨k, hk⟩ := h.pow
  have hlt := conf.slabSize.toNat_lt
  rw [UInt64.toNat_mul, show (2 : UInt64).toNat = 2 from rfl, hk] at hpos ⊢
  rw [hk] at hlt
  have hk64 : k < 64 := (Nat.pow_lt_pow_iff_right (by decide)).1 hlt
  rcases Nat.lt_or_ge k 63 with hk63 | hk63
  · have hle : 2 ^ k ≤ 2 ^ 62 := Nat.pow_le_pow_right (by decide) (Nat.le_of_lt_succ hk63)
    rw [Nat.mod_eq_of_lt (by omega)]
    omega
  · obtain rfl : k = 63 := by omega
    exact absurd hpos (by decide)

/-- What `mmap` yields for a slab. -/
structure Granted (s : SlabSys) (conf : SaConfig) (raw : Addr) : Prop where
  size : (conf.slabSize * 2).toNat = 2 * conf.slabSize.toNat
  pages : 4096 ∣ raw.toNat
  fits : raw.toNat + 2 * conf.slabSize.toNat < 2 ^ 64
  fresh : Disjoint (Set.Ico raw.toNat (raw.toNat + 2 * conf.slabSize.toNat)) (mapped s.log)

theorem granted (hconf : call.conf.Paged) (h : call.request s = some raw) : Granted s call.conf raw := by
  obtain ⟨hpos, hpages, hfits, hfresh⟩ := s.os.mmap_fresh _ _ _ _ h
  have hsize := toNat_double hconf hpos
  rw [hsize] at hfits hfresh
  exact ⟨hsize, hpages, hfits, hfresh⟩

/-- The slab that a call makes of what `mmap` yields. -/
def SlabCall.slab (call : SlabCall) (raw : Addr) : Slab :=
  { conf := call.conf, addr := alignedBlock call.conf raw, id := call.newSlabId }

/-- The slab is in the mapping, at a multiple of its size. -/
theorem Granted.slab_bytes (hconf : call.conf.Paged) (h : Granted s call.conf raw) :
    (call.slab raw).bytes = Set.Ico (roundUp raw.toNat call.conf.slabSize.toNat)
      (roundUp raw.toNat call.conf.slabSize.toNat + call.conf.slabSize.toNat) := by
  obtain ⟨hslab, -⟩ := toNat_alignedBlock hconf.pow h.fits
  rw [Slab.bytes, SlabCall.slab, hslab]

theorem Granted.slab_subset (hconf : call.conf.Paged) (h : Granted s call.conf raw) :
    (call.slab raw).bytes ⊆ Set.Ico raw.toNat (raw.toNat + 2 * call.conf.slabSize.toNat) := by
  have hle := le_roundUp raw.toNat hconf.pos
  have hlt := roundUp_lt raw.toNat hconf.pos
  rw [h.slab_bytes hconf]
  exact Set.Ico_subset_Ico hle (by omega)

theorem Granted.slab_aligned (hconf : call.conf.Paged) (h : Granted s call.conf raw) :
    call.conf.slabSize.toNat ∣ (call.slab raw).addr.toNat := by
  obtain ⟨hslab, -⟩ := toNat_alignedBlock hconf.pow h.fits
  rw [SlabCall.slab, hslab]
  exact dvd_roundUp _ _

/-- A trim of no length is none. -/
theorem exists_trim {addr : Addr} {len : UInt64} {x : Nat} :
    (∃ trim ∈ (if len = 0 then [] else [({ addr := addr, len := len } : Unmapped)]).map Unmapped.trim,
      x ∈ trim.range) ↔ x ∈ Set.Ico addr.toNat (addr.toNat + len.toNat) := by
  by_cases hzero : len = 0
  · simp [hzero]
  · simp [hzero, Unmapped.trim, Trim.range]

/-- Of two trims that begin at the ends of a block, the first one ends before it. -/
theorem pairwise_trims {addr addr' : Addr} {len len' : UInt64} (h : addr.toNat + len.toNat ≤ addr'.toNat) :
    (((if len = 0 then [] else [({ addr := addr, len := len } : Unmapped)]) ++
      (if len' = 0 then [] else [({ addr := addr', len := len' } : Unmapped)])).map Unmapped.trim).Pairwise
        fun trim other => Disjoint trim.range other.range := by
  have hdisjoint : Disjoint (Unmapped.trim { addr := addr, len := len }).range
      (Unmapped.trim { addr := addr', len := len' }).range :=
    Set.disjoint_left.2 fun x hx hx' => Nat.not_le.2 hx.2 (Nat.le_trans h hx'.1)
  by_cases hzero : len = 0
  · by_cases hzero' : len' = 0
    · simp [hzero, hzero']
    · simp [hzero, hzero']
  · by_cases hzero' : len' = 0
    · simp [hzero, hzero']
    · simp [hzero, hzero', hdisjoint]

section

variable [Build]

theorem createSlab_none (hconf : call.conf.Paged) (h : call.request s = none) :
    createSlab s call = .ok (none, { s with calls := s.calls + 1 }) := by
  have hpos : call.conf.slabSize > 0 := UInt64.lt_iff_toNat_lt.2 hconf.pos
  have hmmap : s.os.mmap s.calls s.log (call.conf.slabSize * 2) = none := h
  simp [createSlab, saSlabCreate, saAlignedMmap, hpos, hmmap, h, bind, Except.bind, pure, Except.pure]

/-- With an error pending the mapping is lost. -/
theorem createSlab_lost (hconf : call.conf.Paged) (h : call.request s = some raw) (herr : call.err ≠ .ok) :
    createSlab s call = .ok (none, { s with
      calls := s.calls + 1
      log := .map raw.toNat (call.conf.slabSize * 2).toNat :: s.log }) := by
  have hpos : call.conf.slabSize > 0 := UInt64.lt_iff_toNat_lt.2 hconf.pos
  have hmmap : s.os.mmap s.calls s.log (call.conf.slabSize * 2) = some raw := h
  simp [createSlab, saSlabCreate, saAlignedMmap, hpos, hmmap, h, herr, trimmed, bind, Except.bind, pure, Except.pure]

/-- Without one the slab is made, and everything else is unmapped. -/
theorem createSlab_made (hconf : call.conf.Paged) (h : call.request s = some raw) (herr : call.err = .ok) :
    ∃ log, createSlab s call = .ok (some (call.slab raw), { s with
        calls := s.calls + 1
        log := log
        headers := Function.update s.headers (call.slab raw).addr
          (some { id := call.newSlabId, usedCount := 0 }) }) ∧
      mapped log = (call.slab raw).bytes ∪ mapped s.log ∧ (UnmapsMapped s.log → UnmapsMapped log) := by
  have hgranted := granted hconf h
  have hmmap : s.os.mmap s.calls s.log (call.conf.slabSize * 2) = some raw := h
  obtain ⟨leading, trailing, hleading, htrailing, hrun⟩ := saAlignedMmap_spec hconf.pow hconf.pages hgranted.pages
    hgranted.fits hmmap s.os.munmap_pages
  have hcreate := saSlabCreate_spec hrun call.newSlabId
  rw [← herr] at hcreate
  refine ⟨_, by simp only [createSlab, hcreate, h, bind, Except.bind, pure, Except.pure]; rfl, ?_⟩
  rw [hgranted.size]
  obtain ⟨hslab, hslabEnd⟩ := toNat_alignedBlock hconf.pow hgranted.fits
  have hle := le_roundUp raw.toNat hconf.pos
  have hlt := roundUp_lt raw.toNat hconf.pos
  let slabEnd := alignedBlock call.conf raw + call.conf.slabSize
  have htrims : ∀ x, (∃ trim ∈ ((if leading = 0 then [] else [({ addr := raw, len := leading } : Unmapped)]) ++
      (if trailing = 0 then [] else [({ addr := slabEnd, len := trailing } : Unmapped)])).map Unmapped.trim,
        x ∈ trim.range) ↔
      x ∈ Set.Ico raw.toNat (raw.toNat + 2 * call.conf.slabSize.toNat) ∧ x ∉ (call.slab raw).bytes := by
    intro x
    rw [List.map_append, hgranted.slab_bytes hconf]
    simp only [List.mem_append, or_and_right, exists_or, exists_trim, slabEnd, hslabEnd, Set.mem_Ico]
    omega
  exact ⟨mapped_trims hgranted.fresh (hgranted.slab_subset hconf) htrims,
    fun hunmaps => unmapsMapped_trims hunmaps htrims (pairwise_trims (by omega))⟩

end

/-! ### Runs -/

/-- The slabs and what was lost share out what is mapped. -/
structure SlabInv (lost : List (Set Nat)) (s : SlabSys) (slabs : List Slab) : Prop where
  shares : SharesOut (slabs.map Slab.bytes ++ lost) (mapped s.log)
  unmaps : UnmapsMapped s.log
  paged : ∀ slab ∈ slabs, slab.conf.Paged
  aligned : ∀ slab ∈ slabs, slab.conf.slabSize.toNat ∣ slab.addr.toNat
  headers : ∀ slab ∈ slabs, s.headers slab.addr = some { id := slab.id, usedCount := 0 }

theorem SlabInv.subset_mapped (h : SlabInv lost s slabs) {slab : Slab} (hslab : slab ∈ slabs) :
    slab.bytes ⊆ mapped s.log :=
  fun x hx => (h.shares.mem x).2 ⟨slab.bytes, List.mem_append_left _ (List.mem_map_of_mem hslab), hx⟩

theorem SlabInv.apart (h : SlabInv lost s slabs) : SlabsApart s slabs where
  apart := List.pairwise_map.1 (List.pairwise_append.1 h.shares.apart).1
  mapped _ hslab := h.subset_mapped hslab
  found slab hslab obj hobj := by
    have hfind : saAllocatorFindSlab slab.conf obj = slab.addr :=
      findSlab_of_mem (h.paged slab hslab).pow (h.aligned slab hslab) ⟨hobj.1, hobj.2⟩
    exact ⟨hfind, hfind ▸ h.headers slab hslab⟩

/-- A slab in a mapping that is new. -/
theorem SlabInv.made (h : SlabInv lost s slabs) (hconf : call.conf.Paged) (hgranted : Granted s call.conf raw)
    {log : List Entry} (hlog : mapped log = (call.slab raw).bytes ∪ mapped s.log) (hunmaps : UnmapsMapped log) :
    SlabInv lost
      { s with
        calls := s.calls + 1
        log := log
        headers := Function.update s.headers (call.slab raw).addr (some { id := call.newSlabId, usedCount := 0 }) }
      (call.slab raw :: slabs) where
  shares := by
    change SharesOut _ (mapped log)
    rw [hlog, List.map_cons, List.cons_append]
    exact h.shares.cons (hgranted.fresh.mono_left (hgranted.slab_subset hconf))
  unmaps := hunmaps
  paged := List.forall_mem_cons.2 ⟨hconf, h.paged⟩
  aligned := List.forall_mem_cons.2 ⟨hgranted.slab_aligned hconf, h.aligned⟩
  headers := by
    refine List.forall_mem_cons.2 ⟨Function.update_self .., fun slab hslab => ?_⟩
    -- The header of an older slab is mapped already, that of the new one was not.
    have hne : slab.addr ≠ (call.slab raw).addr := by
      intro heq
      have hold := h.subset_mapped hslab (Slab.addr_mem (h.paged slab hslab))
      have hnew : (call.slab raw).addr.toNat ∈ (call.slab raw).bytes := Slab.addr_mem hconf
      exact Set.disjoint_left.1 hgranted.fresh (hgranted.slab_subset hconf hnew) (heq ▸ hold)
    exact (Function.update_of_ne hne ..).trans (h.headers slab hslab)

/-- A mapping that is lost. -/
theorem SlabInv.lose (h : SlabInv lost s slabs) (hgranted : Granted s call.conf raw) :
    SlabInv (Set.Ico raw.toNat (raw.toNat + 2 * call.conf.slabSize.toNat) :: lost)
      { s with
        calls := s.calls + 1
        log := .map raw.toNat (call.conf.slabSize * 2).toNat :: s.log } slabs where
  shares := by
    change SharesOut _ (Set.Ico raw.toNat (raw.toNat + (call.conf.slabSize * 2).toNat) ∪ mapped s.log)
    rw [hgranted.size]
    exact (h.shares.cons hgranted.fresh).perm List.perm_middle.symm
  unmaps := h.unmaps
  paged := h.paged
  aligned := h.aligned
  headers := h.headers

theorem SlabInv.initial (hlog : start.log = []) : SlabInv [] start [] := by
  refine ⟨?_, ?_, ?_, ?_, ?_⟩
  · rw [hlog]
    exact .nil
  · rw [hlog]
    exact trivial
  · exact fun _ hslab => absurd hslab List.not_mem_nil
  · exact fun _ hslab => absurd hslab List.not_mem_nil
  · exact fun _ hslab => absurd hslab List.not_mem_nil

theorem SlabInv.only_slabs (h : SlabInv [] s slabs) : OnlySlabs s slabs := by
  refine ⟨fun x hx => ?_, h.unmaps⟩
  obtain ⟨block, hblock, hxblock⟩ := (h.shares.mem x).1 hx
  obtain ⟨slab, hslab, rfl⟩ := List.mem_map.1 (List.append_nil _ ▸ hblock)
  exact ⟨slab, hslab, hxblock⟩

/-- Where only slabs are mapped nothing was lost. -/
theorem SlabInv.lost_empty (h : SlabInv lost s slabs) (honly : OnlySlabs s slabs) : ∀ block ∈ lost, block = ∅ := by
  refine h.shares.rest_empty fun x hx => ?_
  obtain ⟨slab, hslab, hxslab⟩ := honly.only x hx
  exact ⟨slab.bytes, List.mem_map_of_mem hslab, hxslab⟩

section

variable [Build]

theorem performSlab_of {st : SlabSys × List Slab} {created : Option Slab}
    (h : createSlab st.1 call = .ok (created, s')) : performSlab st call = .ok (s', created.toList ++ st.2) := by
  simp only [performSlab, h]
  rfl

/-- Every call returns, and loses nothing where no error is pending. -/
theorem SlabInv.step (h : SlabInv lost s slabs) (hconf : call.conf.Paged) :
    ∃ lost' st', performSlab (s, slabs) call = .ok st' ∧ SlabInv lost' st'.1 st'.2 ∧
      (call.Keeps s → lost' = lost) ∧ (¬ call.Keeps s → ∃ block ∈ lost', block.Nonempty) := by
  cases hrequest : call.request s with
  | none =>
      refine ⟨lost, _, performSlab_of (createSlab_none hconf hrequest), ⟨h.shares, h.unmaps, h.paged, h.aligned,
        h.headers⟩, fun _ => rfl, fun hnot => ?_⟩
      exact absurd (fun hsome => absurd hrequest hsome) hnot
  | some raw =>
      have hgranted := granted hconf hrequest
      by_cases herr : call.err = .ok
      · obtain ⟨log, hrun, hlog, hunmaps⟩ := createSlab_made hconf hrequest herr
        exact ⟨lost, _, performSlab_of hrun, h.made hconf hgranted hlog (hunmaps h.unmaps), fun _ => rfl,
          fun hnot => absurd (fun _ => herr) hnot⟩
      · refine ⟨_, _, performSlab_of (createSlab_lost hconf hrequest herr), h.lose hgranted,
          fun hkeeps => absurd (hkeeps (by simp [hrequest])) herr, fun _ => ⟨_, List.mem_cons_self, ?_⟩⟩
        have hpos := hconf.pos
        exact ⟨raw.toNat, Set.left_mem_Ico.2 (by omega)⟩

/-- In every run the slabs that were created stay apart and are found from their bytes, and the next call returns. -/
theorem slabs_apart (hlog : start.log = []) {calls : List SlabCall} {st : SlabSys × List Slab}
    (run : (slabSystem start).Reaches calls st) :
    SlabsApart st.1 st.2 ∧ ∀ call : SlabCall, call.conf.Paged →
      ∃ st', performSlab st call = .ok st' ∧ SlabsApart st'.1 st'.2 := by
  obtain ⟨lost, h⟩ : ∃ lost, SlabInv lost st.1 st.2 := by
    refine run.invariant (P := fun st => ∃ lost, SlabInv lost st.1 st.2) ?_ ?_
    · rintro _ rfl
      exact ⟨[], .initial hlog⟩
    · rintro st call st' ⟨lost, h⟩ ⟨hconf, hrun⟩
      obtain ⟨lost', st'', hrun', h', -⟩ := h.step hconf
      cases hrun.symm.trans hrun'
      exact ⟨lost', h'⟩
  refine ⟨h.apart, fun call hconf => ?_⟩
  obtain ⟨lost', st', hrun, h', -⟩ := h.step hconf
  exact ⟨st', hrun, h'.apart⟩

/-- In a run without an error pending where `mmap` yields something only slabs are mapped and nothing was unmapped twice,
    and the next call keeps it so exactly where none is pending then either. -/
theorem only_slabs_iff (hlog : start.log = []) {calls : List SlabCall} {st : SlabSys × List Slab}
    (run : ((slabSystem start).restrict fun st call => call.Keeps st.1).Reaches calls st) :
    OnlySlabs st.1 st.2 ∧ ∀ call : SlabCall, call.conf.Paged →
      ((∃ st', performSlab st call = .ok st' ∧ OnlySlabs st'.1 st'.2) ↔ call.Keeps st.1) := by
  have h : SlabInv [] st.1 st.2 := by
    refine run.invariant (P := fun st => SlabInv [] st.1 st.2) ?_ ?_
    · rintro _ rfl
      exact .initial hlog
    · rintro st call st' h ⟨hkeeps, hconf, hrun⟩
      obtain ⟨lost', st'', hrun', h', hnone, -⟩ := h.step hconf
      cases hrun.symm.trans hrun'
      exact hnone hkeeps ▸ h'
  refine ⟨h.only_slabs, fun call hconf => ?_⟩
  obtain ⟨lost', st', hrun, h', hnone, hlost⟩ := h.step hconf
  constructor
  · rintro ⟨st'', hrun', honly⟩
    cases hrun.symm.trans hrun'
    by_contra hnot
    obtain ⟨block, hblock, hx⟩ := hlost hnot
    exact hx.ne_empty (h'.lost_empty honly block hblock)
  · exact fun hkeeps => ⟨st', hrun, SlabInv.only_slabs (hnone hkeeps ▸ h')⟩

end

/-! ### Fixed runs -/

/-- The end of what was ever mapped. -/
def logEnd : List Entry → Nat
  | [] => 0
  | .map start len :: log => max (start + len) (logEnd log)
  | .unmap _ _ :: log => logEnd log

theorem mapped_lt_logEnd (log : List Entry) : ∀ x ∈ mapped log, x < logEnd log := by
  induction log with
  | nil => simp [mapped]
  | cons entry log ih =>
      cases entry with
      | map start len =>
          rintro x (hx | hx)
          · exact Nat.lt_of_lt_of_le hx.2 (Nat.le_max_left _ _)
          · exact Nat.lt_of_lt_of_le (ih x hx) (Nat.le_max_right _ _)
      | unmap start len => exact fun x hx => ih x hx.1

/-- A system that maps one page after what was ever mapped. -/
def sampleMapOs : MapOs where
  mmap _ log len :=
    let raw := roundUp (logEnd log) 4096 + 4096
    if 0 < len.toNat ∧ raw + len.toNat < 2 ^ 64 then some (UInt64.ofNat raw) else none
  munmap _ _ := 0
  mmap_fresh := by
    intro n log len raw h
    dsimp only at h
    split at h
    · case isTrue hfits =>
        obtain rfl := Option.some.inj h
        have hraw : (UInt64.ofNat (roundUp (logEnd log) 4096 + 4096)).toNat = roundUp (logEnd log) 4096 + 4096 := by
          rw [UInt64.toNat_ofNat', Nat.mod_eq_of_lt (by omega)]
        rw [hraw]
        refine ⟨hfits.1, Nat.dvd_add (dvd_roundUp _ _) (Nat.dvd_refl _), hfits.2, ?_⟩
        refine Set.disjoint_left.2 fun x hx hx' => ?_
        have hlt := mapped_lt_logEnd log x hx'
        have hle := le_roundUp (logEnd log) (show 0 < 4096 by decide)
        have hge := hx.1
        omega
    · cases h
  munmap_pages _ _ _ _ _ := rfl

/-- That system with nothing mapped. -/
def sampleSlabSys : SlabSys := { os := sampleMapOs, calls := 0, log := [], headers := fun _ => none }

/-- A slab of two pages. -/
def sampleSlabCall (err : JclErr) : SlabCall :=
  { conf := ⟨8, 8, 8192, 16, 0, 1, 1, 1, 1, 1, 1⟩, newSlabId := 7, err := err }

theorem sampleSlabCall_paged (err : JclErr) : (sampleSlabCall err).conf.Paged := ⟨⟨13, rfl⟩, ⟨2, rfl⟩⟩

/-- Two slabs are created. -/
theorem slabs_apart_two :
    letI : Build := ⟨true⟩
    ∃ st, (slabSystem sampleSlabSys).Reaches [sampleSlabCall .ok, sampleSlabCall .ok] st ∧
      st.2.map Slab.addr = [24576, 8192] ∧ SlabsApart st.1 st.2 := by
  let : Build := ⟨true⟩
  have hstart : (slabSystem sampleSlabSys).Reaches [] (sampleSlabSys, []) := .init rfl
  have hpaged := sampleSlabCall_paged .ok
  obtain ⟨st, hst, -⟩ := (slabs_apart rfl hstart).2 _ hpaged
  have hone := hstart.step ⟨hpaged, hst⟩
  obtain ⟨st', hst', -⟩ := (slabs_apart rfl hone).2 _ hpaged
  have htwo := hone.step ⟨hpaged, hst'⟩
  refine ⟨st', htwo, ?_, (slabs_apart rfl htwo).1⟩
  have haddrs : ((performSlab (sampleSlabSys, []) (sampleSlabCall .ok) >>= fun st =>
      performSlab st (sampleSlabCall .ok)).map fun st => st.2.map Slab.addr) = .ok [24576, 8192] := by decide +kernel
  rw [hst] at haddrs
  change ((performSlab st (sampleSlabCall .ok)).map fun st => st.2.map Slab.addr) = .ok [24576, 8192] at haddrs
  rw [hst'] at haddrs
  exact Except.ok.inj haddrs

/-- With an error pending the mapping for the next slab is lost. -/
theorem only_slabs_pending :
    letI : Build := ⟨true⟩
    OnlySlabs sampleSlabSys [] ∧
      ((∃ st', performSlab (sampleSlabSys, []) (sampleSlabCall .sys) = .ok st' ∧ OnlySlabs st'.1 st'.2) ↔
        (sampleSlabCall .sys).Keeps sampleSlabSys) ∧
      ¬ (sampleSlabCall .sys).Keeps sampleSlabSys := by
  let : Build := ⟨true⟩
  have hstart : ((slabSystem sampleSlabSys).restrict fun st call => call.Keeps st.1).Reaches [] (sampleSlabSys, []) :=
    .init rfl
  obtain ⟨honly, hcalls⟩ := only_slabs_iff rfl hstart
  refine ⟨honly, hcalls _ (sampleSlabCall_paged .sys), fun hkeeps => ?_⟩
  have hrequest : (sampleSlabCall .sys).request sampleSlabSys ≠ none := by decide +kernel
  exact absurd (hkeeps hrequest) (by decide)

end Jcl
