/-
Module: Jcl.Proofs.OversizedLayout
Layer: Proofs
Purpose: What `jfs_mlg_memory_init` does with a layout of any size, those that do not fit in a word
  included. Every append works in unbounded arithmetic reduced modulo the word size, so the request it
  ends with is for the exact total modulo the word size and nothing checks that the two agree. The only
  totals that are noticed are those that wrap to zero, by the asserts of the next append, and a number of
  descriptions that wraps the size of the offset array.
Imports: Jcl.Proofs.MemoryLayout
Trusted boundary: none (fully proved)
Main exports: mlgAppendAll_wraps, mlgAppendAll_faults, memoryInit_requests, oversized_rejected_iff
-/
import Jcl.Proofs.MemoryLayout

namespace Jcl

open WordAlign Packing

/-- No running total before the last one is a multiple of the word size. -/
def NoZeroTotal (e : Nat) (bs : List Block) : Prop :=
  ∀ i < bs.length, ¬ 2 ^ 64 ∣ extent e (bs.take i)

instance (e : Nat) (bs : List Block) : Decidable (NoZeroTotal e bs) :=
  inferInstanceAs (Decidable (∀ i < bs.length, ¬ 2 ^ 64 ∣ extent e (bs.take i)))

theorem noZeroTotal_nil (e : Nat) : NoZeroTotal e [] := fun _ hi => absurd hi (Nat.not_lt_zero _)

theorem noZeroTotal_cons {e : Nat} {b : Block} {bs : List Block} :
    NoZeroTotal e (b :: bs) ↔
      ¬ 2 ^ 64 ∣ e ∧ NoZeroTotal (roundUp e b.align + b.size) bs := by
  constructor
  · intro h
    refine ⟨h 0 (Nat.zero_lt_succ _), fun i hi => ?_⟩
    exact h (i + 1) (Nat.succ_lt_succ hi)
  · rintro ⟨hhead, htail⟩ i hi
    cases i with
    | zero => exact hhead
    | succ i => exact htail i (Nat.lt_of_succ_lt_succ hi)

section

variable [Build]

/-- An append to a block whose size has wrapped to zero stops at the first assert. -/
theorem jfsMlgAppend_zero {base : MlgDesc} {size : Nat} (hrun : Running size base) (d : MlgDesc)
    (hbuild : Build.asserts = true) (hzero : 2 ^ 64 ∣ size) :
    jfsMlgAppend base d = .error .assertion := by
  have hsize : base.size = 0 := by
    rw [hrun.size, ofNat_eq_zero_iff]
    exact hzero
  have hvalid : jfsMlgValidDesc base = false := by
    simp [jfsMlgValidDesc, hsize]
  simp [jfsMlgAppend, assert, hbuild, hvalid, bind, Except.bind]

/-- The loop of `jfs_mlg_memory_init` computes the exact placement reduced modulo the word size. -/
theorem mlgAppendAll_wraps {offsetsBytes : UInt64} {descs : List MlgDesc} {i size : Nat}
    {base : MlgDesc} (hrun : Running size base) (hdescs : ∀ d ∈ descs, d.Valid)
    (hroom : 8 * (i + descs.length) ≤ offsetsBytes.toNat)
    (hzero : Build.asserts = true → NoZeroTotal size (descs.map MlgDesc.block)) :
    mlgAppendAll offsetsBytes i base descs =
      .ok (some
        ({ size := .ofNat (extent size (descs.map MlgDesc.block))
           align := (descs.map MlgDesc.align).foldl largerAlign base.align
           count := base.count },
          (starts size (descs.map MlgDesc.block)).map .ofNat)) := by
  induction descs generalizing i size base with
  | nil =>
      have hbase : base = { size := .ofNat size, align := base.align, count := base.count } := by
        rw [← hrun.size]
      rw [hbase]
      rfl
  | cons d rest ih =>
      have hd : d.Valid := hdescs d (by simp)
      have hstep := jfsMlgAppend_wraps hrun hd fun hbuild =>
        (noZeroTotal_cons.1 (hzero hbuild)).1
      have hlen : 8 * (i + 1 + rest.length) ≤ offsetsBytes.toNat := by
        simp only [List.length_cons] at hroom
        omega
      have hloop := ih (hrun.grown hd) (fun c hc => hdescs c (List.mem_cons_of_mem d hc)) hlen
        fun hbuild => (noZeroTotal_cons.1 (hzero hbuild)).2
      have hstore : ¬ 8 * i + 8 > offsetsBytes.toNat := by omega
      simp [mlgAppendAll, (jfsMlgValidDesc_iff d).2 hd, hstep, hstore, hloop, extent, bind, Except.bind,
        pure, Except.pure]
      exact ⟨rfl, rfl⟩

/-- The loop stops with a fault when an assert sees a zero total or the offset array is too short. -/
theorem mlgAppendAll_faults {offsetsBytes : UInt64} {descs : List MlgDesc} {i size : Nat}
    {base : MlgDesc} (hrun : Running size base) (hdescs : ∀ d ∈ descs, d.Valid)
    (hi : 8 * i ≤ offsetsBytes.toNat)
    (hbad : offsetsBytes.toNat < 8 * (i + descs.length) ∨
      (Build.asserts = true ∧ ¬ NoZeroTotal size (descs.map MlgDesc.block))) :
    ∃ fault, mlgAppendAll offsetsBytes i base descs = .error fault := by
  induction descs generalizing i size base with
  | nil =>
      rcases hbad with hbad | ⟨-, hbad⟩
      · simp only [List.length_nil] at hbad
        omega
      · exact absurd (noZeroTotal_nil size) hbad
  | cons d rest ih =>
      have hd : d.Valid := hdescs d (by simp)
      by_cases hstop : Build.asserts = true ∧ 2 ^ 64 ∣ size
      · refine ⟨.assertion, ?_⟩
        simp [mlgAppendAll, (jfsMlgValidDesc_iff d).2 hd, jfsMlgAppend_zero hrun d hstop.1 hstop.2,
          bind, Except.bind]
      · have hstep := jfsMlgAppend_wraps hrun hd fun hbuild hdvd => hstop ⟨hbuild, hdvd⟩
        by_cases hstore : 8 * i + 8 > offsetsBytes.toNat
        · refine ⟨.outOfBounds, ?_⟩
          simp [mlgAppendAll, (jfsMlgValidDesc_iff d).2 hd, hstep, hstore, bind, Except.bind]
          rfl
        · have hbad' : offsetsBytes.toNat < 8 * (i + 1 + rest.length) ∨ (Build.asserts = true ∧
              ¬ NoZeroTotal (roundUp size d.block.align + d.block.size)
                (rest.map MlgDesc.block)) := by
            rcases hbad with hbad | ⟨hbuild, hbad⟩
            · left
              simp only [List.length_cons] at hbad
              omega
            · right
              refine ⟨hbuild, fun htail => hbad (noZeroTotal_cons.2 ⟨?_, htail⟩)⟩
              exact fun hdvd => hstop ⟨hbuild, hdvd⟩
          obtain ⟨fault, hloop⟩ := ih (hrun.grown hd)
            (fun c hc => hdescs c (List.mem_cons_of_mem d hc)) (by omega) hbad'
          refine ⟨fault, ?_⟩
          simp [mlgAppendAll, (jfsMlgValidDesc_iff d).2 hd, hstep, hstore, hloop, bind, Except.bind]


end

/-- The largest of the record's alignment, 8, and the alignments a layout asks for. -/
def MlgLayout.largestAlign (layout : MlgLayout) : UInt64 :=
  ((layout.headerDesc :: layout.descriptions).map MlgDesc.align).foldl largerAlign 8

theorem listEnd_eq (layout : MlgLayout) :
    extent 24 (layout.tailBlocks.take 1) = 24 + 32 * layout.descriptionsCount.toNat := by
  have hround : roundUp 24 8 = 24 := rfl
  change roundUp 24 8 + 32 * layout.descriptionsCount.toNat = _
  rw [hround]

theorem listEnd_ne_zero (layout : MlgLayout) : ¬ 2 ^ 64 ∣ extent 24 (layout.tailBlocks.take 1) := by
  rw [listEnd_eq]
  omega

/-- The totals before the header are 24 and 24 plus a multiple of 32, so they never wrap to zero. -/
theorem noZeroTotal_tailBlocks (layout : MlgLayout) :
    NoZeroTotal 24 layout.tailBlocks ↔
      NoZeroTotal (extent 24 (layout.tailBlocks.take 2)) (layout.descriptions.map MlgDesc.block) := by
  constructor
  · intro h
    exact (noZeroTotal_cons.1 (noZeroTotal_cons.1 h).2).2
  · intro h
    refine noZeroTotal_cons.2 ⟨by omega, noZeroTotal_cons.2 ⟨?_, h⟩⟩
    exact listEnd_ne_zero layout

/-- The record and the component list. -/
def MlgLayout.recordAndList (layout : MlgLayout) : MlgDesc :=
  mlgMemoryDesc.grown 24 (mlgComponentListDesc layout.descriptionsCount)

/-- The description that reaches the loop of `jfs_mlg_memory_init`: the record, the list, the header. -/
def MlgLayout.bookkeeping (layout : MlgLayout) : MlgDesc :=
  layout.recordAndList.grown (extent 24 (layout.tailBlocks.take 1)) layout.headerDesc

theorem mlgMemoryDesc_running : Running 24 mlgMemoryDesc := ⟨mlgMemoryDesc_valid.align, by decide, rfl⟩

theorem recordAndList_running {layout : MlgLayout} (hvalid : layout.Valid) :
    Running (extent 24 (layout.tailBlocks.take 1)) layout.recordAndList :=
  mlgMemoryDesc_running.grown (mlgComponentListDesc_valid hvalid.count)

theorem bookkeeping_running {layout : MlgLayout} (hvalid : layout.Valid) :
    Running (extent 24 (layout.tailBlocks.take 2)) layout.bookkeeping :=
  (recordAndList_running hvalid).grown hvalid.header

section

variable [Build]

/-- The two appends before the loop never see a zero. -/
theorem bookkeeping_appends {layout : MlgLayout} (hvalid : layout.Valid) :
    ∃ listOffset headerOffset,
      jfsMlgAppend mlgMemoryDesc (mlgComponentListDesc layout.descriptionsCount) =
        .ok (layout.recordAndList, listOffset) ∧
      jfsMlgAppend layout.recordAndList layout.headerDesc = .ok (layout.bookkeeping, headerOffset) :=
  ⟨_, _,
    jfsMlgAppend_wraps mlgMemoryDesc_running (mlgComponentListDesc_valid hvalid.count)
      fun _ => by omega,
    jfsMlgAppend_wraps (recordAndList_running hvalid) hvalid.header
      fun _ => listEnd_ne_zero layout⟩

/-- Without room for the offsets, `jfs_mlg_memory_init` reports the failed `malloc`. -/
theorem memoryInit_noMalloc {alloc : MlgAllocators} {layout : MlgLayout} (hvalid : layout.Valid)
    (hmalloc : alloc.malloc (8 * layout.descriptionsCount) = false) :
    jfsMlgMemoryInit alloc layout .ok = .ok (.sys, none) := by
  obtain ⟨listOffset, headerOffset, hrun₁, hrun₂⟩ := bookkeeping_appends hvalid
  simp [jfsMlgMemoryInit, (jfsMlgValidDesc_iff _).2 hvalid.header, hrun₁, hrun₂, hmalloc, bind,
    Except.bind, pure, Except.pure]

/-- With the offsets allocated, `jfs_mlg_memory_init` stops with a fault when an assert sees a total that
    wrapped to zero, or when the size of the offset array itself wrapped. -/
theorem memoryInit_faults {alloc : MlgAllocators} {layout : MlgLayout} (hvalid : layout.Valid)
    (hmalloc : alloc.malloc (8 * layout.descriptionsCount) = true)
    (hbad : ¬ (layout.descriptionsCount.toNat < 2 ^ 61 ∧
      (Build.asserts = true → NoZeroTotal 24 layout.tailBlocks))) :
    ∃ fault, jfsMlgMemoryInit alloc layout .ok = .error fault := by
  obtain ⟨listOffset, headerOffset, hrun₁, hrun₂⟩ := bookkeeping_appends hvalid
  have hwrap : (8 * layout.descriptionsCount).toNat < 2 ^ 64 := UInt64.toNat_lt _
  have hshort : (8 * layout.descriptionsCount).toNat < 8 * (0 + layout.descriptions.length) ∨
      (Build.asserts = true ∧ ¬ NoZeroTotal (extent 24 (layout.tailBlocks.take 2))
        (layout.descriptions.map MlgDesc.block)) := by
    rw [← noZeroTotal_tailBlocks, layout.length_descriptions]
    by_cases hcount : layout.descriptionsCount.toNat < 2 ^ 61
    · right
      exact Classical.not_imp.1 fun hzero => hbad ⟨hcount, hzero⟩
    · left
      omega
  obtain ⟨fault, hloop⟩ := mlgAppendAll_faults (bookkeeping_running hvalid) hvalid.descs
    (Nat.zero_le _) hshort
  refine ⟨fault, ?_⟩
  simp [jfsMlgMemoryInit, (jfsMlgValidDesc_iff _).2 hvalid.header, hrun₁, hrun₂, hmalloc, hloop, bind,
    Except.bind]

/-- Otherwise `jfs_mlg_memory_init` asks for the exact size modulo the word size, and what it answers
    depends on that request alone. -/
theorem memoryInit_requests {alloc : MlgAllocators} {layout : MlgLayout} (hvalid : layout.Valid)
    (hmalloc : alloc.malloc (8 * layout.descriptionsCount) = true)
    (hreach : layout.descriptionsCount.toNat < 2 ^ 61 ∧
      (Build.asserts = true → NoZeroTotal 24 layout.tailBlocks)) :
    (alloc.alignedAlloc layout.largestAlign (.ofNat layout.exactSize) = none ∧
      jfsMlgMemoryInit alloc layout .ok = .ok (.sys, none)) ∨
    ∃ base, alloc.alignedAlloc layout.largestAlign (.ofNat layout.exactSize) = some base ∧
      ((∃ fault, jfsMlgMemoryInit alloc layout .ok = .error fault) ∨
        ∃ memory, memory.self = base ∧
          jfsMlgMemoryInit alloc layout .ok = .ok (.ok, some memory)) := by
  obtain ⟨listOffset, headerOffset, hrun₁, hrun₂⟩ := bookkeeping_appends hvalid
  have hroom : 8 * (0 + layout.descriptions.length) ≤ (8 * layout.descriptionsCount).toNat := by
    rw [layout.length_descriptions, UInt64.toNat_mul]
    change _ ≤ 8 * layout.descriptionsCount.toNat % 2 ^ 64
    omega
  have hsize : extent (extent 24 (layout.tailBlocks.take 2)) (layout.descriptions.map MlgDesc.block) =
      layout.exactSize := rfl
  have halign : (layout.descriptions.map MlgDesc.align).foldl largerAlign layout.bookkeeping.align =
      layout.largestAlign := rfl
  have hloop := mlgAppendAll_wraps (bookkeeping_running hvalid) hvalid.descs hroom
    fun hbuild => (noZeroTotal_tailBlocks layout).1 (hreach.2 hbuild)
  rw [hsize, halign] at hloop
  cases hgrant : alloc.alignedAlloc layout.largestAlign (.ofNat layout.exactSize) with
  | none =>
      left
      refine ⟨rfl, ?_⟩
      simp [jfsMlgMemoryInit, (jfsMlgValidDesc_iff _).2 hvalid.header, hrun₁, hrun₂, hmalloc, hloop,
        hgrant, bind, Except.bind, pure, Except.pure]
  | some base =>
      right
      refine ⟨base, rfl, ?_⟩
      simp only [jfsMlgMemoryInit, (jfsMlgValidDesc_iff _).2 hvalid.header, hrun₁, hrun₂, hmalloc,
        hloop, hgrant, bind, Except.bind, pure, Except.pure, Bool.not_true, Bool.false_eq_true,
        if_true, if_false, ne_eq, not_true]
      cases jfsMlgApplyOffset base listOffset with
      | error fault => exact Or.inl ⟨fault, rfl⟩
      | ok componentList =>
          cases jfsMlgApplyOffset base headerOffset with
          | error fault => exact Or.inl ⟨fault, rfl⟩
          | ok header =>
              cases mlgFillComponents base layout.descriptions
                  ((starts (extent 24 (layout.tailBlocks.take 2))
                    (layout.descriptions.map MlgDesc.block)).map .ofNat) with
              | error fault => exact Or.inl ⟨fault, rfl⟩
              | ok components => exact Or.inr ⟨_, rfl, rfl⟩

/-- A valid layout is rejected with an error exactly when an allocator refuses: the offset array is not
    granted, or the request for the total modulo the word size is reached and refused. It is reached when
    the size of the offset array does not wrap and, in a build with asserts, no total before the last one
    is a multiple of the word size. Whether the exact total fits in a word plays no part. -/
theorem oversized_rejected_iff (alloc : MlgAllocators) (layout : MlgLayout) (hvalid : layout.Valid) :
    (∃ err, jfsMlgMemoryInit alloc layout .ok = .ok (err, none) ∧ err ≠ .ok) ↔
      alloc.malloc (8 * layout.descriptionsCount) = false ∨
        ((layout.descriptionsCount.toNat < 2 ^ 61 ∧
            (Build.asserts = true → NoZeroTotal 24 layout.tailBlocks)) ∧
          alloc.alignedAlloc layout.largestAlign (.ofNat layout.exactSize) = none) := by
  cases hmalloc : alloc.malloc (8 * layout.descriptionsCount) with
  | false =>
      exact ⟨fun _ => Or.inl rfl, fun _ => ⟨.sys, memoryInit_noMalloc hvalid hmalloc, by decide⟩⟩
  | true =>
      by_cases hreach : layout.descriptionsCount.toNat < 2 ^ 61 ∧
          (Build.asserts = true → NoZeroTotal 24 layout.tailBlocks)
      · rcases memoryInit_requests hvalid hmalloc hreach with
          ⟨hnone, hrun⟩ | ⟨base, hbase, hanswer⟩
        · exact ⟨fun _ => Or.inr ⟨hreach, hnone⟩, fun _ => ⟨.sys, hrun, by decide⟩⟩
        · constructor
          · rintro ⟨err, hrun, -⟩
            rcases hanswer with ⟨fault, hfault⟩ | ⟨memory, -, hmemory⟩
            · rw [hfault] at hrun
              cases hrun
            · rw [hmemory] at hrun
              cases hrun
          · rintro (hfalse | ⟨-, hnone⟩)
            · cases hfalse
            · rw [hnone] at hbase
              cases hbase
      · obtain ⟨fault, hfault⟩ := memoryInit_faults hvalid hmalloc hreach
        constructor
        · rintro ⟨err, hrun, -⟩
          rw [hfault] at hrun
          cases hrun
        · rintro (hfalse | ⟨hreach', -⟩)
          · cases hfalse
          · exact absurd hreach' hreach

/-- What an oversized layout gets instead of an error is a block shorter than the layout. -/
theorem oversized_block_short {alloc : MlgAllocators} {layout : MlgLayout} (hvalid : layout.Valid)
    (hover : 2 ^ 64 ≤ layout.exactSize) {err : JclErr} {memory : MlgMemory}
    (hrun : jfsMlgMemoryInit alloc layout .ok = .ok (err, some memory)) :
    ∃ size : UInt64, size.toNat < layout.exactSize ∧
      alloc.alignedAlloc layout.largestAlign size = some memory.self := by
  have hmalloc : alloc.malloc (8 * layout.descriptionsCount) = true := by
    rw [← Bool.not_eq_false]
    intro hfalse
    rw [memoryInit_noMalloc hvalid hfalse] at hrun
    cases hrun
  have hreach : layout.descriptionsCount.toNat < 2 ^ 61 ∧
      (Build.asserts = true → NoZeroTotal 24 layout.tailBlocks) := by
    by_contra hbad
    obtain ⟨fault, hfault⟩ := memoryInit_faults hvalid hmalloc hbad
    rw [hfault] at hrun
    cases hrun
  refine ⟨.ofNat layout.exactSize, Nat.lt_of_lt_of_le (UInt64.toNat_lt _) hover, ?_⟩
  rcases memoryInit_requests hvalid hmalloc hreach with
    ⟨-, hanswer⟩ | ⟨base, hbase, ⟨fault, hfault⟩ | ⟨memory', hself, hanswer⟩⟩
  · rw [hanswer] at hrun
    cases hrun
  · rw [hfault] at hrun
    cases hrun
  · rw [hanswer] at hrun
    cases hrun
    rw [hbase, hself]

end

/-- One component of two objects of 2^63 bytes behind a one-byte header: 2^64 + 57 bytes in all. -/
def oversizedLayout : MlgLayout where
  descriptions := [⟨0x8000000000000000, 1, 2⟩]
  descriptionsCount := 1
  headerDesc := ⟨1, 1, 1⟩
  length_descriptions := rfl

theorem oversizedLayout_valid : oversizedLayout.Valid := by
  refine ⟨by decide, ⟨⟨0, rfl⟩, by decide, by decide⟩, ?_⟩
  intro d hd
  simp only [oversizedLayout, List.mem_singleton] at hd
  subst hd
  exact ⟨⟨0, rfl⟩, by decide, by decide⟩

/-- The allocator that refuses the wrapped request leads to a rejection. -/
theorem oversized_rejected_sample :
    letI : Build := ⟨true⟩
    2 ^ 64 ≤ oversizedLayout.exactSize ∧
      ∃ err, jfsMlgMemoryInit ⟨fun _ => true, fun _ _ => none⟩ oversizedLayout .ok = .ok (err, none) ∧
        err ≠ .ok := by
  let : Build := ⟨true⟩
  refine ⟨by decide, (oversized_rejected_iff _ _ oversizedLayout_valid).2 (Or.inr ⟨⟨?_, ?_⟩, rfl⟩)⟩
  · decide
  · intro _
    decide

/-- The allocator that grants the 57 bytes of the wrapped request gets a memory block back, with a
    component of 2^64 bytes at its last address. -/
theorem oversized_granted :
    letI : Build := ⟨true⟩
    oversizedLayout.Valid ∧ 1 ≤ oversizedLayout.descriptionsCount.toNat ∧
      2 ^ 64 ≤ oversizedLayout.exactSize ∧
      jfsMlgMemoryInit ⟨fun _ => true, fun _ size => if size = 57 then some 4096 else none⟩
          oversizedLayout .ok =
        .ok (.ok, some ⟨4096, 4120, [⟨4153, ⟨0x8000000000000000, 1, 2⟩⟩], 1, 4152⟩) ∧
      ¬ ∃ err, jfsMlgMemoryInit ⟨fun _ => true, fun _ size => if size = 57 then some 4096 else none⟩
          oversizedLayout .ok = .ok (err, none) ∧ err ≠ .ok := by
  let : Build := ⟨true⟩
  have hrun : jfsMlgMemoryInit ⟨fun _ => true, fun _ size => if size = 57 then some 4096 else none⟩
      oversizedLayout .ok = .ok (.ok, some ⟨4096, 4120, [⟨4153, ⟨0x8000000000000000, 1, 2⟩⟩], 1, 4152⟩) := rfl
  refine ⟨oversizedLayout_valid, by decide, by decide, hrun, ?_⟩
  rintro ⟨err, hnone, -⟩
  rw [hrun] at hnone
  cases hnone

end Jcl
