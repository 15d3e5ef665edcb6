/-
Module: Jcl.Proofs.MemoryLayout
Layer: Proofs
Purpose: `memory_layout_generator.c` computes the greedy packing of its descriptions. One append is one
  step of `Packing.place` reduced modulo the word size, and exact as long as its end fits in a word; the loop of `jfs_mlg_memory_init` is
  the whole placement; and because the requested alignment is the largest of powers of two, every block
  keeps its own alignment once the placement is moved to the allocated address.
Imports: Jcl.Lib.Packing, Jcl.MemoryLayoutGenerator
Trusted boundary: none (fully proved)
Main exports: jfsMlgAppend_wraps, jfsMlgAppend_spec, mlgAppendAll_spec, memoryInit_sound
-/
import Jcl.Lib.Packing
import Jcl.MemoryLayoutGenerator

namespace Jcl

open WordAlign Packing

/-- The bytes a description stands for, in unbounded arithmetic. -/
def MlgDesc.block (d : MlgDesc) : Block :=
  { size := d.size.toNat * d.count.toNat, align := d.align.toNat }

/-- What `jfs_mlg_valid_desc` accepts. -/
structure MlgDesc.Valid (d : MlgDesc) : Prop where
  align : d.align.toNat.isPowerOfTwo
  size : 0 < d.size.toNat
  count : 0 < d.count.toNat

theorem jfsMlgValidAlign_iff (align : UInt64) :
    jfsMlgValidAlign align = true ↔ align.toNat.isPowerOfTwo := by
  rw [← testPow2_iff]
  simp [jfsMlgValidAlign]

theorem jfsMlgValidDesc_iff (d : MlgDesc) : jfsMlgValidDesc d = true ↔ d.Valid := by
  simp only [jfsMlgValidDesc, Bool.and_eq_true, jfsMlgValidAlign_iff, decide_eq_true_eq, gt_iff_lt,
    UInt64.lt_iff_toNat_lt]
  constructor
  · rintro ⟨⟨ha, hs⟩, hc⟩
    exact ⟨ha, hs, hc⟩
  · rintro ⟨ha, hs, hc⟩
    exact ⟨⟨ha, hs⟩, hc⟩

theorem MlgDesc.Valid.align_pos {d : MlgDesc} (h : d.Valid) : 0 < d.align.toNat :=
  Nat.pos_of_isPowerOfTwo h.align

theorem MlgDesc.Valid.size_pos {d : MlgDesc} (h : d.Valid) : 0 < d.block.size :=
  Nat.mul_pos h.size h.count

theorem block_align_pos {descs : List MlgDesc} (hdescs : ∀ d ∈ descs, d.Valid) :
    ∀ b ∈ descs.map MlgDesc.block, 0 < b.align := by
  intro b hb
  obtain ⟨d, hd, rfl⟩ := List.mem_map.1 hb
  exact (hdescs d hd).align_pos

theorem ofNat_eq_zero_iff (n : Nat) : UInt64.ofNat n = 0 ↔ 2 ^ 64 ∣ n := by
  rw [← UInt64.toNat_inj, UInt64.toNat_ofNat', Nat.dvd_iff_mod_eq_zero]
  rfl

/-- The larger of two alignments. -/
def largerAlign (a b : UInt64) : UInt64 := if b > a then b else a

theorem largerAlign_choice (a b : UInt64) : largerAlign a b = a ∨ largerAlign a b = b := by
  unfold largerAlign
  split
  · exact Or.inr rfl
  · exact Or.inl rfl

theorem largerAlign_isPowerOfTwo {a b : UInt64} (ha : a.toNat.isPowerOfTwo)
    (hb : b.toNat.isPowerOfTwo) : (largerAlign a b).toNat.isPowerOfTwo := by
  rcases largerAlign_choice a b with h | h
  · rw [h]
    exact ha
  · rw [h]
    exact hb

theorem dvd_largerAlign_left {a b : UInt64} (ha : a.toNat.isPowerOfTwo) (hb : b.toNat.isPowerOfTwo) :
    a.toNat ∣ (largerAlign a b).toNat := by
  unfold largerAlign
  split
  next hlt =>
    rw [gt_iff_lt, UInt64.lt_iff_toNat_lt] at hlt
    exact isPowerOfTwo_dvd_of_le ha hb (Nat.le_of_lt hlt)
  next => exact Nat.dvd_refl _

theorem dvd_largerAlign_right {a b : UInt64} (ha : a.toNat.isPowerOfTwo)
    (hb : b.toNat.isPowerOfTwo) : b.toNat ∣ (largerAlign a b).toNat := by
  unfold largerAlign
  split
  next => exact Nat.dvd_refl _
  next hlt =>
    rw [gt_iff_lt, UInt64.lt_iff_toNat_lt] at hlt
    exact isPowerOfTwo_dvd_of_le hb ha (Nat.le_of_not_lt hlt)

/-- A block description that a loop of appends can start from: its total stands for `size` modulo the
    word size. -/
structure Running (size : Nat) (base : MlgDesc) : Prop where
  align : base.align.toNat.isPowerOfTwo
  count : 0 < base.count.toNat
  size : base.size = .ofNat size

/-- The description after an append, in unbounded arithmetic reduced at the end. -/
def MlgDesc.grown (base : MlgDesc) (size : Nat) (d : MlgDesc) : MlgDesc where
  size := .ofNat (roundUp size d.block.align + d.block.size)
  align := largerAlign base.align d.align
  count := base.count

theorem Running.grown {base d : MlgDesc} {size : Nat} (hrun : Running size base) (hd : d.Valid) :
    Running (roundUp size d.block.align + d.block.size) (base.grown size d) :=
  ⟨largerAlign_isPowerOfTwo hrun.align hd.align, hrun.count, rfl⟩

/-- The validity asserts of an append see one thing beyond a running block: whether its size is zero. -/
theorem Running.valid {base : MlgDesc} {size : Nat} (hrun : Running size base)
    (hzero : ¬ 2 ^ 64 ∣ size) : base.Valid := by
  refine ⟨hrun.align, Nat.pos_of_ne_zero fun h => hzero ?_, hrun.count⟩
  rw [← ofNat_eq_zero_iff, ← hrun.size]
  exact UInt64.toNat_inj.1 h

section

variable [Build]

/-- One append adds in unbounded arithmetic and reduces, as long as the asserts do not see a zero. -/
theorem jfsMlgAppend_wraps {base d : MlgDesc} {size : Nat} (hrun : Running size base) (hd : d.Valid)
    (hzero : Build.asserts = true → ¬ 2 ^ 64 ∣ size) :
    jfsMlgAppend base d = .ok (base.grown size d, .ofNat (roundUp size d.block.align)) := by
  have hmask : (base.size + d.align - 1) &&& ~~~(d.align - 1) =
      .ofNat (roundUp size d.block.align) := by
    rw [hrun.size]
    exact maskUp_ofNat size hd.align
  have hproduct : d.size * d.count = .ofNat d.block.size := by
    simp [MlgDesc.block]
  have hsum : UInt64.ofNat (roundUp size d.block.align) + d.size * d.count =
      .ofNat (roundUp size d.block.align + d.block.size) := by
    rw [hproduct, UInt64.ofNat_add]
  have hassert : assert (jfsMlgValidDesc base) = .ok () ∧
      assert (decide (base.size > 0)) = .ok () := by
    cases hbuild : Build.asserts with
    | false => exact ⟨assert_of_noasserts hbuild _, assert_of_noasserts hbuild _⟩
    | true =>
        have hbase := hrun.valid (hzero hbuild)
        have hpos : base.size > 0 := by
          rw [gt_iff_lt, UInt64.lt_iff_toNat_lt]
          exact hbase.size
        simp [(jfsMlgValidDesc_iff base).2 hbase, hpos]
  have halignSize : jfsMlgAlignSize base.size d.align = .ok (.ofNat (roundUp size d.block.align)) := by
    simp [jfsMlgAlignSize, (jfsMlgValidAlign_iff _).2 hd.align, hassert.2, hmask, bind, Except.bind,
      pure, Except.pure]
  by_cases hlt : d.align > base.align
  · simp [jfsMlgAppend, (jfsMlgValidDesc_iff d).2 hd, hassert.1, halignSize, hsum, hlt, MlgDesc.grown,
      largerAlign, bind, Except.bind, pure, Except.pure]
  · simp [jfsMlgAppend, (jfsMlgValidDesc_iff d).2 hd, hassert.1, halignSize, hsum, hlt, MlgDesc.grown,
      largerAlign, bind, Except.bind, pure, Except.pure]

theorem jfsMlgAlignSize_spec {size align : UInt64} (ha : align.toNat.isPowerOfTwo)
    (hs : 0 < size.toNat) (hfit : roundUp size.toNat align.toNat < 2 ^ 64) :
    ∃ aligned, jfsMlgAlignSize size align = .ok aligned ∧
      aligned.toNat = roundUp size.toNat align.toNat := by
  refine ⟨(size + align - 1) &&& ~~~(align - 1), ?_, toNat_maskUp size ha hfit⟩
  have hpos : size > 0 := by rw [gt_iff_lt, UInt64.lt_iff_toNat_lt]; exact hs
  simp [jfsMlgAlignSize, (jfsMlgValidAlign_iff align).2 ha, hpos, bind, Except.bind, pure, Except.pure]

/-- The effect of one append whose exact end fits in a word. -/
structure Appended (base d base' : MlgDesc) (offset : UInt64) : Prop where
  valid : base'.Valid
  count : base'.count = base.count
  offset : offset.toNat = roundUp base.size.toNat d.align.toNat
  size : base'.size.toNat = roundUp base.size.toNat d.align.toNat + d.size.toNat * d.count.toNat
  align_base : base.align.toNat ∣ base'.align.toNat
  align_desc : d.align.toNat ∣ base'.align.toNat
  align : base'.align = base.align ∨ base'.align = d.align

theorem jfsMlgAppend_spec {base d : MlgDesc} (hb : base.Valid) (hd : d.Valid)
    (hfit : roundUp base.size.toNat d.align.toNat + d.size.toNat * d.count.toNat < 2 ^ 64) :
    ∃ base' offset, jfsMlgAppend base d = .ok (base', offset) ∧ Appended base d base' offset := by
  have hrun : Running base.size.toNat base := ⟨hb.align, hb.count, UInt64.ofNat_toNat.symm⟩
  have hzero : ¬ 2 ^ 64 ∣ base.size.toNat := Nat.not_dvd_of_pos_of_lt hb.size base.size.toNat_lt
  have hle : base.size.toNat ≤ roundUp base.size.toNat d.align.toNat := le_roundUp _ hd.align_pos
  have hsize : (base.grown base.size.toNat d).size.toNat =
      roundUp base.size.toNat d.align.toNat + d.size.toNat * d.count.toNat := by
    change (UInt64.ofNat _).toNat = _
    rw [UInt64.toNat_ofNat']
    exact Nat.mod_eq_of_lt hfit
  have hoffset : (UInt64.ofNat (roundUp base.size.toNat d.align.toNat)).toNat =
      roundUp base.size.toNat d.align.toNat := by
    rw [UInt64.toNat_ofNat']
    exact Nat.mod_eq_of_lt (by omega)
  have hpos : 0 < (base.grown base.size.toNat d).size.toNat := by
    have := hb.size
    omega
  refine ⟨base.grown base.size.toNat d, .ofNat (roundUp base.size.toNat d.align.toNat),
    jfsMlgAppend_wraps hrun hd fun _ => hzero, ?_⟩
  exact ⟨⟨(hrun.grown hd).align, hpos, hb.count⟩, rfl, hoffset, hsize,
    dvd_largerAlign_left hb.align hd.align, dvd_largerAlign_right hb.align hd.align,
    largerAlign_choice _ _⟩

/-- The append loop of `jfs_mlg_memory_init` places every description after the current block. -/
theorem mlgAppendAll_spec {offsetsBytes : UInt64} :
    ∀ {descs : List MlgDesc} {i : Nat} {base : MlgDesc}, base.Valid → (∀ d ∈ descs, d.Valid) →
      8 * (i + descs.length) ≤ offsetsBytes.toNat →
      extent base.size.toNat (descs.map MlgDesc.block) < 2 ^ 64 →
      ∃ base' offsets, mlgAppendAll offsetsBytes i base descs = .ok (some (base', offsets)) ∧
        base'.Valid ∧
        offsets.map UInt64.toNat = starts base.size.toNat (descs.map MlgDesc.block) ∧
        base'.size.toNat = extent base.size.toNat (descs.map MlgDesc.block) ∧
        base.align.toNat ∣ base'.align.toNat ∧ ∀ d ∈ descs, d.align.toNat ∣ base'.align.toNat
  | [], _, base, hb, _, _, _ => ⟨base, [], rfl, hb, rfl, rfl, Nat.dvd_refl _, by simp⟩
  | d :: rest, i, base, hb, hdescs, hroom, hfit => by
      have hd : d.Valid := hdescs d (by simp)
      have hrest : ∀ c ∈ rest, c.Valid := fun c hc => hdescs c (List.mem_cons_of_mem d hc)
      have hend : roundUp base.size.toNat d.align.toNat + d.size.toNat * d.count.toNat < 2 ^ 64 :=
        Nat.lt_of_le_of_lt (le_extent _ (block_align_pos hrest)) hfit
      obtain ⟨mid, offset, hstep, happ⟩ := jfsMlgAppend_spec hb hd hend
      have hmid : mid.size.toNat = roundUp base.size.toNat d.block.align + d.block.size := happ.size
      have hlen : 8 * (i + 1 + rest.length) ≤ offsetsBytes.toNat := by
        simp only [List.length_cons] at hroom
        omega
      have hfit' : extent mid.size.toNat (rest.map MlgDesc.block) < 2 ^ 64 := by
        rw [hmid]
        exact hfit
      obtain ⟨base', offsets, hloop, hvalid, hstarts, hsize, hbase, halign⟩ :=
        mlgAppendAll_spec happ.valid hrest hlen hfit'
      have hstore : ¬ 8 * i + 8 > offsetsBytes.toNat := by omega
      refine ⟨base', offset :: offsets, ?_, hvalid, ?_, ?_, Nat.dvd_trans happ.align_base hbase, ?_⟩
      · simp [mlgAppendAll, (jfsMlgValidDesc_iff d).2 hd, hstep, hstore, hloop, bind, Except.bind,
          pure, Except.pure]
      · rw [hmid] at hstarts
        simp only [List.map_cons, hstarts, happ.offset]
        rfl
      · rw [hsize, hmid]
        rfl
      · intro c hc
        rcases List.mem_cons.1 hc with rfl | hc
        · exact Nat.dvd_trans happ.align_desc hbase
        · exact halign c hc

theorem jfsMlgApplyOffset_eq (ptr : Addr) {offset : UInt64} (h : 0 < offset.toNat) :
    jfsMlgApplyOffset ptr offset = .ok (ptr + offset) := by
  have hpos : offset > 0 := by rw [gt_iff_lt, UInt64.lt_iff_toNat_lt]; exact h
  simp [jfsMlgApplyOffset, hpos, bind, Except.bind, pure, Except.pure]

/-- The fill loop stores every description beside the address of its block. -/
theorem mlgFillComponents_eq (memory : Addr) (descs : List MlgDesc) (offsets : List UInt64)
    (hpos : ∀ o ∈ offsets, 0 < o.toNat) :
    mlgFillComponents memory descs offsets =
      .ok (List.zipWith (fun d o => { ptr := memory + o, desc := d }) descs offsets) := by
  induction descs generalizing offsets with
  | nil => simp [mlgFillComponents, pure, Except.pure]
  | cons d descs ih =>
      cases offsets with
      | nil => simp [mlgFillComponents, pure, Except.pure]
      | cons o offsets =>
          have hrest := ih offsets fun p hp => hpos p (List.mem_cons_of_mem o hp)
          simp [mlgFillComponents, jfsMlgApplyOffset_eq memory (hpos o (by simp)), hrest, bind,
            Except.bind, pure, Except.pure]

end

theorem toNat_base_add {base offset : Addr} {size : Nat} (hfit : base.toNat + size ≤ 2 ^ 64)
    (hlt : offset.toNat < size) : (base + offset).toNat = base.toNat + offset.toNat := by
  rw [UInt64.toNat_add, Nat.mod_eq_of_lt (by omega)]

/-- The address range of a stored component. -/
def MlgComponent.region (c : MlgComponent) : Region :=
  { start := c.ptr.toNat, size := c.desc.block.size, align := c.desc.block.align }

/-- The stored components are the placed blocks moved to the allocated address. -/
theorem components_regions {base : Addr} {size : Nat} (hfit : base.toNat + size ≤ 2 ^ 64)
    (descs : List MlgDesc) (offsets : List UInt64) (e : Nat)
    (hoffs : offsets.map UInt64.toNat = starts e (descs.map MlgDesc.block))
    (hlt : ∀ o ∈ offsets, o.toNat < size) :
    (List.zipWith (fun d o => ({ ptr := base + o, desc := d } : MlgComponent)) descs offsets).map
        MlgComponent.region =
      (place e (descs.map MlgDesc.block)).map (Region.shift base.toNat) := by
  induction descs generalizing offsets e with
  | nil => simp [place]
  | cons d descs ih =>
      cases offsets with
      | nil => simp [starts, place] at hoffs
      | cons o offsets =>
          simp only [starts, List.map_cons, place, List.cons.injEq] at hoffs
          obtain ⟨ho, hrest⟩ := hoffs
          have hhead := toNat_base_add hfit (hlt o (by simp))
          have htail := ih offsets _ hrest fun p hp => hlt p (List.mem_cons_of_mem o hp)
          simp only [List.zipWith_cons_cons, List.map_cons, place, List.cons.injEq]
          exact ⟨by simp [MlgComponent.region, Region.shift, hhead, ho], htail⟩

theorem components_descs {base : Addr} (descs : List MlgDesc) (offsets : List UInt64)
    (hlen : descs.length = offsets.length) :
    (List.zipWith (fun d o => ({ ptr := base + o, desc := d } : MlgComponent)) descs offsets).map
        MlgComponent.desc = descs := by
  induction descs generalizing offsets with
  | nil => simp
  | cons d descs ih =>
      cases offsets with
      | nil => simp at hlen
      | cons o offsets => simp [ih offsets (by simpa using hlen)]

/-- The blocks of a layout in the order they are laid out: the memory record, the component list, the
    header and the components. -/
def MlgLayout.blocks (layout : MlgLayout) : List Block :=
  mlgMemoryDesc.block :: (mlgComponentListDesc layout.descriptionsCount).block ::
    layout.headerDesc.block :: layout.descriptions.map MlgDesc.block

/-- The bytes a layout needs, in unbounded arithmetic. -/
def MlgLayout.exactSize (layout : MlgLayout) : Nat := extent 0 layout.blocks

/-- The address ranges of a returned memory block: the record, the component list, the header and every
    component. -/
def MlgMemory.regions (memory : MlgMemory) (headerDesc : MlgDesc) : List Region :=
  { start := memory.self.toNat, size := 24, align := 8 } ::
    { start := memory.componentList.toNat, size := 32 * memory.componentCount.toNat, align := 8 } ::
    { start := memory.header.toNat, size := headerDesc.block.size, align := headerDesc.block.align } ::
    memory.components.map MlgComponent.region

/-- A memory block laid out for `layout` in the `size` bytes at `base`: every range begins at the least
    multiple of its alignment at or after the end of the range before it, no two ranges meet, and all of
    them lie inside the allocation. -/
structure LaidOut (layout : MlgLayout) (base : Addr) (size : UInt64) (memory : MlgMemory) : Prop where
  self : memory.self = base
  componentCount : memory.componentCount = layout.descriptionsCount
  descs : memory.components.map MlgComponent.desc = layout.descriptions
  least : Packed base.toNat (memory.regions layout.headerDesc)
  disjoint : (memory.regions layout.headerDesc).Pairwise fun r s => r.stop ≤ s.start
  inside : ∀ r ∈ memory.regions layout.headerDesc,
    base.toNat ≤ r.start ∧ r.stop ≤ base.toNat + size.toNat

theorem mlgMemoryDesc_valid : mlgMemoryDesc.Valid := ⟨⟨3, rfl⟩, by decide, by decide⟩

theorem mlgComponentListDesc_valid {count : UInt64} (h : 0 < count.toNat) :
    (mlgComponentListDesc count).Valid := ⟨⟨3, rfl⟩, Nat.zero_lt_succ 31, h⟩

/-- The blocks placed after the memory record. -/
def MlgLayout.tailBlocks (layout : MlgLayout) : List Block :=
  (mlgComponentListDesc layout.descriptionsCount).block :: layout.headerDesc.block ::
    layout.descriptions.map MlgDesc.block

/-- What `jfs_mlg_memory_init` needs of a layout, short of its total size. -/
structure MlgLayout.Valid (layout : MlgLayout) : Prop where
  count : 1 ≤ layout.descriptionsCount.toNat
  header : layout.headerDesc.Valid
  descs : ∀ d ∈ layout.descriptions, d.Valid

theorem MlgLayout.Valid.tail_pos {layout : MlgLayout} (h : layout.Valid) :
    ∀ b ∈ layout.tailBlocks, 0 < b.align ∧ 0 < b.size := by
  intro b hb
  simp only [MlgLayout.tailBlocks, List.mem_cons, List.mem_map] at hb
  rcases hb with rfl | rfl | ⟨d, hd, rfl⟩
  · have hlist := mlgComponentListDesc_valid h.count
    exact ⟨hlist.align_pos, hlist.size_pos⟩
  · exact ⟨h.header.align_pos, h.header.size_pos⟩
  · exact ⟨(h.descs d hd).align_pos, (h.descs d hd).size_pos⟩

theorem MlgLayout.Valid.align_pos {layout : MlgLayout} (h : layout.Valid) :
    ∀ b ∈ layout.blocks, 0 < b.align := by
  intro b hb
  rcases List.mem_cons.1 hb with rfl | hb
  · exact mlgMemoryDesc_valid.align_pos
  · exact (h.tail_pos b hb).1

/-- A placement of the layout's blocks moved to an aligned base is a sound layout. -/
theorem laidOut_of_regions {layout : MlgLayout} {base : Addr} {size : UInt64} {memory : MlgMemory}
    (hvalid : layout.Valid) (hsize : size.toNat = layout.exactSize)
    (halign : ∀ b ∈ layout.blocks, b.align ∣ base.toNat)
    (hself : memory.self = base) (hcount : memory.componentCount = layout.descriptionsCount)
    (hcomps : memory.components.map MlgComponent.desc = layout.descriptions)
    (hregions : memory.regions layout.headerDesc =
      (place 0 layout.blocks).map (Region.shift base.toNat)) :
    LaidOut layout base size memory := by
  have hpos := hvalid.align_pos
  have hdvd : ∀ r ∈ place 0 layout.blocks, r.align ∣ base.toNat := by
    intro r hr
    obtain ⟨b, hb, heq, -⟩ := mem_place hr
    exact heq ▸ halign b hb
  have hpacked : Packed base.toNat (memory.regions layout.headerDesc) := by
    rw [hregions]
    exact Packed.shift (place_packed 0 hpos) hdvd
  refine ⟨hself, hcount, hcomps, hpacked, hpacked.pairwise, ?_⟩
  intro r hr
  refine ⟨hpacked.le_start r hr, ?_⟩
  rw [hregions] at hr
  obtain ⟨q, hq, rfl⟩ := List.mem_map.1 hr
  have hstop : q.stop ≤ layout.exactSize := stop_le_extent 0 hpos q hq
  have hshift : (q.shift base.toNat).stop = base.toNat + q.stop := Nat.add_assoc _ _ _
  omega

section

variable [Build]

/-- The offsets and the request that the first half of `jfs_mlg_memory_init` computes: the three appends
    run, the offsets are the starts of the blocks after the record, and the request is for the exact size
    at an alignment that every block's alignment divides. -/
structure Plan (layout : MlgLayout) (request : MlgDesc) (listOffset headerOffset : UInt64)
    (offsets : List UInt64) : Prop where
  run : ∃ desc₁ desc₂,
    jfsMlgAppend mlgMemoryDesc (mlgComponentListDesc layout.descriptionsCount) =
      .ok (desc₁, listOffset) ∧
    jfsMlgAppend desc₁ layout.headerDesc = .ok (desc₂, headerOffset) ∧
    mlgAppendAll (8 * layout.descriptionsCount) 0 desc₂ layout.descriptions =
      .ok (some (request, offsets))
  size : request.size.toNat = layout.exactSize
  align : ∀ b ∈ layout.blocks, b.align ∣ request.align.toNat
  starts : listOffset.toNat :: headerOffset.toNat :: offsets.map UInt64.toNat =
    Packing.starts 24 layout.tailBlocks

theorem exists_plan {layout : MlgLayout} (hvalid : layout.Valid) (hfit : layout.exactSize < 2 ^ 64) :
    ∃ request listOffset headerOffset offsets,
      Plan layout request listOffset headerOffset offsets := by
  have hlist := mlgComponentListDesc_valid hvalid.count
  have hcompsPos := block_align_pos hvalid.descs
  have hheaderPos : ∀ b ∈ layout.headerDesc.block :: layout.descriptions.map MlgDesc.block,
      0 < b.align := fun b hb => (hvalid.tail_pos b (List.mem_cons_of_mem _ hb)).1
  -- The exact end after each append is bounded by the exact size of the whole layout.
  have hend₁ : roundUp 24 8 + 32 * layout.descriptionsCount.toNat < 2 ^ 64 :=
    Nat.lt_of_le_of_lt (le_extent _ hheaderPos) hfit
  obtain ⟨desc₁, listOffset, hrun₁, happ₁⟩ := jfsMlgAppend_spec mlgMemoryDesc_valid hlist hend₁
  have hsize₁ : desc₁.size.toNat = roundUp 24 8 + 32 * layout.descriptionsCount.toNat := happ₁.size
  have hext₁ : layout.exactSize = extent desc₁.size.toNat
      (layout.headerDesc.block :: layout.descriptions.map MlgDesc.block) := by
    rw [hsize₁]
    rfl
  have hend₂ : roundUp desc₁.size.toNat layout.headerDesc.align.toNat +
      layout.headerDesc.size.toNat * layout.headerDesc.count.toNat < 2 ^ 64 :=
    Nat.lt_of_le_of_lt (le_extent _ hcompsPos) (hext₁ ▸ hfit)
  obtain ⟨desc₂, headerOffset, hrun₂, happ₂⟩ := jfsMlgAppend_spec happ₁.valid hvalid.header hend₂
  have hext₂ : layout.exactSize = extent desc₂.size.toNat
      (layout.descriptions.map MlgDesc.block) := by
    rw [hext₁, happ₂.size]
    rfl
  have hbytes : (8 * layout.descriptionsCount).toNat = 8 * layout.descriptionsCount.toNat := by
    rw [UInt64.toNat_mul]
    exact Nat.mod_eq_of_lt (by change 8 * layout.descriptionsCount.toNat < 2 ^ 64; omega)
  have hroom : 8 * (0 + layout.descriptions.length) ≤ (8 * layout.descriptionsCount).toNat := by
    rw [layout.length_descriptions, hbytes]
    omega
  obtain ⟨request, offsets, hrun₃, -, hstarts, hsize₃, hdvd₃, haligns⟩ :=
    mlgAppendAll_spec happ₂.valid hvalid.descs hroom (hext₂ ▸ hfit)
  refine ⟨request, listOffset, headerOffset, offsets,
    ⟨desc₁, desc₂, hrun₁, hrun₂, hrun₃⟩, hsize₃.trans hext₂.symm, ?_, ?_⟩
  · intro b hb
    simp only [MlgLayout.blocks, List.mem_cons, List.mem_map] at hb
    rcases hb with rfl | rfl | rfl | ⟨d, hd, rfl⟩
    · exact (happ₁.align_base.trans happ₂.align_base).trans hdvd₃
    · exact (happ₁.align_desc.trans happ₂.align_base).trans hdvd₃
    · exact happ₂.align_desc.trans hdvd₃
    · exact haligns d hd
  · rw [hstarts, happ₁.offset, happ₂.offset, happ₂.size, hsize₁]
    rfl

/-- The offsets of a plan are positive and inside the requested size. -/
theorem Plan.offset_bounds {layout : MlgLayout} {request : MlgDesc} {listOffset headerOffset : UInt64}
    {offsets : List UInt64} (hvalid : layout.Valid)
    (plan : Plan layout request listOffset headerOffset offsets) :
    ∀ o ∈ listOffset :: headerOffset :: offsets, 0 < o.toNat ∧ o.toNat < request.size.toNat := by
  intro o ho
  have hmem : o.toNat ∈ Packing.starts 24 layout.tailBlocks := by
    rw [← plan.starts]
    exact List.mem_map_of_mem ho
  have hbounds := starts_bounds (fun b hb => (hvalid.tail_pos b hb).1)
    (fun b hb => (hvalid.tail_pos b hb).2) o.toNat hmem
  have hextent : extent 24 layout.tailBlocks = layout.exactSize := rfl
  rw [plan.size, ← hextent]
  omega

/-- For a layout whose exact size fits in a word, `jfs_mlg_memory_init` asks for that many bytes, and at
    every base address aligned as it asks it returns a sound layout. -/
theorem memoryInit_sound (layout : MlgLayout) (hvalid : layout.Valid)
    (hfit : layout.exactSize < 2 ^ 64) :
    ∃ align size : UInt64, size.toNat = layout.exactSize ∧
      ∀ (alloc : MlgAllocators) (base : Addr),
        alloc.malloc (8 * layout.descriptionsCount) = true →
        alloc.alignedAlloc align size = some base →
        align.toNat ∣ base.toNat → base.toNat + size.toNat ≤ 2 ^ 64 →
        ∃ memory, jfsMlgMemoryInit alloc layout .ok = .ok (.ok, some memory) ∧
          LaidOut layout base size memory := by
  obtain ⟨request, listOffset, headerOffset, offsets, plan⟩ := exists_plan hvalid hfit
  refine ⟨request.align, request.size, plan.size, ?_⟩
  intro alloc base hmalloc halloc hbase hspace
  obtain ⟨desc₁, desc₂, hrun₁, hrun₂, hrun₃⟩ := plan.run
  have hbounds := plan.offset_bounds hvalid
  have hpos : ∀ o ∈ offsets, 0 < o.toNat := fun o ho => (hbounds o (by simp [ho])).1
  have hlt : ∀ o ∈ offsets, o.toNat < request.size.toNat := fun o ho => (hbounds o (by simp [ho])).2
  have hlist := hbounds listOffset (by simp)
  have hheader := hbounds headerOffset (by simp)
  have hstarts := plan.starts
  simp only [MlgLayout.tailBlocks, starts_cons, List.cons.injEq] at hstarts
  obtain ⟨hlistStart, hheaderStart, hrest⟩ := hstarts
  have hlength : layout.descriptions.length = offsets.length := by
    simpa using (congrArg List.length hrest).symm
  have hrun : jfsMlgMemoryInit alloc layout .ok = .ok (.ok, some
      { self := base
        componentList := base + listOffset
        components := List.zipWith (fun d o => { ptr := base + o, desc := d })
          layout.descriptions offsets
        componentCount := layout.descriptionsCount
        header := base + headerOffset }) := by
    simp [jfsMlgMemoryInit, (jfsMlgValidDesc_iff _).2 hvalid.header, hrun₁, hrun₂, hrun₃, hmalloc,
      halloc, jfsMlgApplyOffset_eq base hlist.1, jfsMlgApplyOffset_eq base hheader.1,
      mlgFillComponents_eq base layout.descriptions offsets hpos, bind, Except.bind, pure, Except.pure]
  refine ⟨_, hrun, laidOut_of_regions hvalid plan.size
    (fun b hb => (plan.align b hb).trans hbase) rfl rfl
    (components_descs layout.descriptions offsets hlength) ?_⟩
  have hcomps := components_regions hspace layout.descriptions offsets _ hrest hlt
  simp only [MlgMemory.regions, MlgLayout.blocks, place, List.map_cons, hcomps,
    toNat_base_add hspace hlist.2, toNat_base_add hspace hheader.2, hlistStart, hheaderStart]
  rfl

end

/-- One component of two 8-byte objects behind a 4-byte header. -/
def sampleLayout : MlgLayout where
  descriptions := [⟨8, 8, 2⟩]
  descriptionsCount := 1
  headerDesc := ⟨4, 4, 1⟩
  length_descriptions := rfl

/-- The sample layout needs 24 bytes of record, 32 of list, 4 of header, 4 of padding and 16 of
    component; a block at 4096 is laid out accordingly. -/
theorem memoryInit_sound_sample :
    (∃ align size : UInt64, size.toNat = sampleLayout.exactSize ∧
      ∀ (alloc : MlgAllocators) (base : Addr), alloc.malloc 8 = true →
        alloc.alignedAlloc align size = some base →
        align.toNat ∣ base.toNat → base.toNat + size.toNat ≤ 2 ^ 64 →
        ∃ memory, @jfsMlgMemoryInit ⟨true⟩ alloc sampleLayout .ok = .ok (.ok, some memory) ∧
          LaidOut sampleLayout base size memory) ∧
      sampleLayout.exactSize = 80 ∧
      @jfsMlgMemoryInit ⟨true⟩ ⟨fun _ => true, fun _ _ => some 4096⟩ sampleLayout .ok =
        .ok (.ok, some ⟨4096, 4120, [⟨4160, ⟨8, 8, 2⟩⟩], 1, 4152⟩) := by
  refine ⟨?_, rfl, rfl⟩
  refine @memoryInit_sound ⟨true⟩ sampleLayout ⟨by decide, ⟨⟨2, rfl⟩, by decide, by decide⟩, ?_⟩ ?_
  · intro d hd
    simp only [sampleLayout, List.mem_singleton] at hd
    subst hd
    exact ⟨⟨3, rfl⟩, by decide, by decide⟩
  · decide

end Jcl
