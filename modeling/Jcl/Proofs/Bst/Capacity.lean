/-
Module: Jcl.Proofs.Bst.Capacity
Layer: Proofs
Purpose: A tree on a component with its own descriptor. `jfs_bst_make_desc` leaves `count` at 1 and puts
  the values of all objects behind one node header, and `jfs_bst_init` reads that as one slot with one
  value: the tree has the requested capacity iff one object was requested.
Imports: Jcl.Proofs.Bst.Runs
Trusted boundary: human-reviewed spec (HasCapacity)
Main exports: jfsBstMakeDesc_spec, Initialized.puts_first, HasCapacity, capacity_iff
-/
import Jcl.Proofs.Bst.Runs

namespace Jcl

open RedBlack RedBlack.RBTree TaggedWord WordAlign

section

variable {K V : Type} {t t' : Bst K V} {cmp : K → V → Int} {key : K} {value : V} {nilStorage : Addr}
  {conf : BstConf K V} {objSize objAlign objCount : UInt64} {desc : MlgDesc} {err : JclErr}

/-- The offset of the values is the same for the alignment of the values and that of the slot. -/
theorem roundUp_header {a b : UInt64} (hb : b = 8 ∨ b = a) (ha : a.toNat ∣ b.toNat)
    (hpos : 0 < a.toNat) : roundUp 32 b.toNat = roundUp 32 a.toNat := by
  rcases hb with rfl | rfl
  · rw [roundUp_eq_self (by decide) (by decide), roundUp_eq_self hpos (ha.trans (by decide))]
  · rfl

/-- The header of a node as a description. -/
def bstNodeDesc : MlgDesc := { size := 32, align := 8, count := 1 }

theorem bstNodeDesc_valid : bstNodeDesc.Valid := ⟨⟨3, rfl⟩, by decide, by decide⟩

/-- What `jfs_bst_make_desc` returns: one slot, with room for a header and all the objects. -/
structure NodeDesc (objSize objAlign objCount : UInt64) (desc : MlgDesc) : Prop where
  valid : desc.Valid
  count : desc.count = 1
  align : 8 ∣ desc.align.toNat
  offset : roundUp 32 desc.align.toNat = roundUp 32 objAlign.toNat
  size : desc.size.toNat = roundUp 32 objAlign.toNat + objSize.toNat * objCount.toNat

/-- The only slot of a component with one object. -/
theorem slots_one {c : MlgComponent} (hcount : c.desc.count = 1) : c.slots = [c.ptr] := by
  simp [MlgComponent.slots, slots, hcount, ByteMemory.slotAddr]

/-- A component with this descriptor at `ptr`, as `jfs_mlg_memory_init` places it, and the sentinel of the
    tree apart from it. -/
structure PlacedAt (desc : MlgDesc) (ptr nilStorage : Addr) : Prop where
  ne_null : ptr ≠ null
  aligned : desc.align.toNat ∣ ptr.toNat
  fits : ptr.toNat + desc.size.toNat * desc.count.toNat ≤ 2 ^ 64
  nil_ne_null : nilStorage ≠ null
  nil_aligned : 8 ∣ nilStorage.toNat
  nil_apart : nilStorage.toNat + 32 ≤ ptr.toNat ∨
    ptr.toNat + desc.size.toNat * desc.count.toNat ≤ nilStorage.toNat

theorem NodeDesc.nodeComponent {ptr : Addr} (h : NodeDesc objSize objAlign objCount desc)
    (hplaced : PlacedAt desc ptr nilStorage) : NodeComponent ⟨ptr, desc⟩ nilStorage := by
  have hslots : MlgComponent.slots ⟨ptr, desc⟩ = [ptr] := slots_one h.count
  have hsize := h.size
  have hpos := h.valid.size
  refine ⟨(jfsMlgValidComponent_iff _).2 ⟨h.valid, hplaced.ne_null⟩, hplaced.fits, ?_, ?_,
    hplaced.nil_ne_null, hplaced.nil_aligned, ?_⟩
  · rw [h.offset, hsize]
    exact Nat.le_add_right _ _
  · intro p hp
    rw [hslots, List.mem_singleton] at hp
    subst hp
    exact h.align.trans hplaced.aligned
  · intro hnil
    rw [hslots, List.mem_singleton] at hnil
    subst hnil
    have hapart := hplaced.nil_apart
    rw [h.count, UInt64.toNat_one, Nat.mul_one] at hapart
    omega

/-- `jfs_bst_init` takes the bytes of all the objects for one value. -/
theorem NodeDesc.valueSize {t₀ : Bst K V} {ptr : Addr} (h : NodeDesc objSize objAlign objCount desc)
    (hinit : Initialized t₀ nilStorage ⟨⟨ptr, desc⟩, some cmp⟩ cmp t) :
    t.valueSize.toNat = objSize.toNat * objCount.toNat := by
  have hoffset := hinit.valueOffset
  have hsize := h.size
  rw [h.offset] at hoffset
  have hle : t.valueOffset ≤ desc.size := by
    rw [UInt64.le_iff_toNat_le]
    omega
  rw [hinit.valueSize, UInt64.toNat_sub_of_le _ _ hle]
  omega

variable [Build]

/-- For a valid request the descriptor is that of the append behind the header. -/
theorem jfsBstMakeDesc_append {offset : UInt64} (err : JclErr)
    (hvalid : MlgDesc.Valid ⟨objSize, objAlign, objCount⟩)
    (happend : jfsMlgAppend bstNodeDesc ⟨objSize, objAlign, objCount⟩ = .ok (desc, offset)) :
    jfsBstMakeDesc objSize objAlign objCount err = .ok (desc, err) := by
  have hnode : jfsMlgValidDesc ⟨32, 8, 1⟩ = true := (jfsMlgValidDesc_iff _).2 bstNodeDesc_valid
  have hobj := (jfsMlgValidDesc_iff _).2 hvalid
  rw [bstNodeDesc] at happend
  simp [jfsBstMakeDesc, hnode, hobj, happend, bind, Except.bind, pure, Except.pure]

theorem jfsBstMakeDesc_spec (err : JclErr) (hvalid : MlgDesc.Valid ⟨objSize, objAlign, objCount⟩)
    (hfit : roundUp 32 objAlign.toNat + objSize.toNat * objCount.toNat < 2 ^ 64) :
    ∃ desc, jfsBstMakeDesc objSize objAlign objCount err = .ok (desc, err) ∧
      NodeDesc objSize objAlign objCount desc := by
  obtain ⟨desc, offset, hrun, happended⟩ := jfsMlgAppend_spec bstNodeDesc_valid hvalid hfit
  refine ⟨desc, jfsBstMakeDesc_append err hvalid hrun, happended.valid, happended.count,
    happended.align_base, ?_, happended.size⟩
  exact roundUp_header happended.align happended.align_desc hvalid.align_pos

/-- The first `jfs_bst_puts` succeeds, whatever the comparator and the contents of the slot are. -/
theorem Initialized.puts_first {t₀ : Bst K V} (h : Initialized t₀ nilStorage conf cmp t)
    (hc : NodeComponent conf.component nilStorage) :
    Returns (jfsBstPuts value key err) t fun err' t' =>
      err' = err ∧ t'.freeList.count = t.freeList.count - 1 := by
  obtain ⟨hdesc, -⟩ := (jfsMlgValidComponent_iff _).1 hc.valid
  have hoff := h.offset_pos hdesc.align
  have hslots := hc.nodeSlots
  have hcount : t.freeList.count ≠ 0 := by
    rw [h.freeList]
    intro hzero
    change conf.component.desc.count = 0 at hzero
    have hpos := hdesc.count
    rw [hzero] at hpos
    exact absurd hpos (by decide)
  obtain ⟨fl, halloc, hnull, hslot, -, -⟩ := FlInv.alloc_some hslots.laws (h.flInv hc) hcount
  have hfl : fl.count = t.freeList.count - 1 := by
    simp only [jfsFlAlloc, hcount, hnull, if_false, Except.ok.injEq, Prod.mk.injEq] at halloc
    rw [← halloc.2]
  set x := t.freeList.list
  let t₁ : Bst K V := { t with
    freeList := fl
    mem := { t.mem with value := Function.update t.mem.value (x + t.valueOffset) value } }
  have hholds : Holds t₁ (plug [] leaf) := h.holds.congr (Agree.of_links rfl (fun _ _ => rfl) rfl rfl) rfl
  have hcmp : t₁.cmp = some cmp := h.cmp
  simp only [jfsBstPuts, bstFlAlloc, returns_ite, returns_bind, returns_get, returns_lift, returns_set,
    returns_pure, returns_modify]
  refine ⟨fun hzero => absurd hzero hcount, fun _ => ⟨(x, fl), halloc, ?_⟩⟩
  rw [returns_bstPackNode (t := { t with freeList := fl }) hoff]
  refine (bstCheckCache_spec hcmp hoff).mono fun c s hs => ?_
  obtain ⟨rfl, hs⟩ := hs
  have hnil : c = t.nil := by
    rcases hs with ⟨hne, hcached, -⟩ | ⟨rfl, -⟩
    · have hnodes : t₁.cachedNodes = [nilStorage, nilStorage, nilStorage] := by
        simp [Bst.cachedNodes, t₁, h.cache]
      rw [hnodes] at hcached
      have hc : c = nilStorage := by simpa using hcached
      exact absurd (hc.trans h.nil.symm) hne
    · rfl
  refine ⟨fun hne => absurd hnil hne, fun _ => ?_⟩
  refine (bstFind_spec hcmp hoff hholds).mono fun location s hs => ?_
  obtain ⟨rfl, hfound⟩ := hs
  have hloc : LocationAt t₁.nil [] location := ⟨hfound.node, hfound.parent, by simp⟩
  refine ⟨fun hne => absurd hloc.node hne, fun _ => ?_⟩
  have hxslot := hslots.node x hslot
  rw [← h.nil] at hxslot
  refine (bstInsert_spec hholds hxslot (by simp) trivial hloc).mono fun _ t₂ ht₂ => ?_
  obtain ⟨T, -, -, hframe⟩ := ht₂
  have hparnull : location.parent ≠ null := by
    rw [hloc.parent]
    exact h.nilOk.ne_null
  refine (bstUpdateCacheInsert_cache hparnull).mono fun _ t₃ ht₃ => ?_
  obtain ⟨cache, rfl⟩ := ht₃
  refine ⟨trivial, ?_⟩
  change t₂.freeList.count = _
  rw [hframe.freeList]
  exact hfl

/-- `jfs_bst_puts` of one value after the other: what each call returns. -/
def putsAll : List (V × K) → BstM K V (List JclErr)
  | [] => return []
  | (value, key) :: entries => do
      let err ← jfsBstPuts value key .ok
      return err :: (← putsAll entries)

/-- The tree has room for `objCount` values of `objSize` bytes in its component. -/
structure HasCapacity (t : Bst K V) (component : MlgComponent) (objSize objCount : UInt64) : Prop where
  valueSize : t.valueSize = objSize
  /-- The free list has as many slots, apart from each other and inside the component, each with room for
      a node header and a value. -/
  slots : ∃ free, Chain t.mem.parentColor null t.freeList.list free ∧ t.freeList.count = objCount ∧
    free.length = objCount.toNat ∧ 32 ≤ t.valueOffset.toNat ∧
    (∀ p ∈ free, component.ptr.toNat ≤ p.toNat ∧ p.toNat + t.valueOffset.toNat + t.valueSize.toNat ≤
      component.ptr.toNat + component.desc.size.toNat * component.desc.count.toNat) ∧
    free.Pairwise fun p q => p.toNat + t.valueOffset.toNat + t.valueSize.toNat ≤ q.toNat ∨
      q.toNat + t.valueOffset.toNat + t.valueSize.toNat ≤ p.toNat
  /-- As many calls succeed, and one more fails. -/
  puts : ∀ (entries : List (V × K)) (last : V × K), entries.length = objCount.toNat →
    Returns (putsAll (entries ++ [last])) t fun errs _ =>
      errs = List.replicate objCount.toNat .ok ++ [.full]

/-- One slot with the bytes of one value is what was asked for. -/
theorem NodeDesc.hasCapacity {t₀ : Bst K V} {ptr : Addr} (h : NodeDesc objSize objAlign 1 desc)
    (hplaced : PlacedAt desc ptr nilStorage)
    (hinit : Initialized t₀ nilStorage ⟨⟨ptr, desc⟩, some cmp⟩ cmp t) :
    HasCapacity t ⟨ptr, desc⟩ objSize 1 := by
  have hc := h.nodeComponent hplaced
  have hvalueSize := h.valueSize hinit
  rw [UInt64.toNat_one, Nat.mul_one] at hvalueSize
  have hcount : t.freeList.count = 1 := by
    rw [hinit.freeList]
    exact h.count
  obtain ⟨free, hchain, hlen, hperm⟩ := hinit.flInv hc
  have hslots : free = [ptr] := by
    rw [List.append_nil] at hperm
    exact (hperm.trans (List.Perm.of_eq (slots_one h.count))).eq_singleton
  have hoffset := hinit.valueOffset
  have hsize := h.size
  refine ⟨UInt64.toNat_inj.1 hvalueSize, ⟨free, hchain, hcount, ?_, ?_, ?_, ?_⟩, ?_⟩
  · rw [hslots, List.length_singleton, UInt64.toNat_one]
  · rw [hoffset]
    exact le_roundUp 32 h.valid.align_pos
  · intro p hp
    rw [hslots, List.mem_singleton] at hp
    subst hp
    refine ⟨le_refl _, ?_⟩
    change p.toNat + _ + _ ≤ p.toNat + desc.size.toNat * desc.count.toNat
    rw [hoffset, h.count, hvalueSize, hsize, UInt64.toNat_one, Nat.mul_one, Nat.mul_one]
    change p.toNat + roundUp 32 desc.align.toNat + _ ≤ _
    rw [h.offset, Nat.add_assoc]
  · rw [hslots]
    exact List.pairwise_singleton _ _
  · intro entries last hentries
    obtain ⟨⟨value, key⟩, rfl⟩ := List.length_eq_one_iff.1 hentries
    simp only [List.cons_append, List.nil_append, putsAll, returns_bind, returns_pure]
    refine (hinit.puts_first hc).mono fun err t₁ ht₁ => ?_
    obtain ⟨rfl, hcount₁⟩ := ht₁
    refine (puts_full (by rw [hcount₁, hcount]; rfl)).mono fun err t₂ ht₂ => ?_
    obtain ⟨rfl, -⟩ := ht₂
    rfl

/-- For every request that `jfs_bst_make_desc` accepts and whose size fits in a word, the tree on a
    component with the returned descriptor has the requested capacity iff one object was requested. -/
theorem capacity_iff (objSize objAlign objCount : UInt64)
    (hvalid : jfsMlgValidDesc ⟨objSize, objAlign, objCount⟩ = true)
    (hfit : roundUp 32 objAlign.toNat + objSize.toNat * objCount.toNat < 2 ^ 64) :
    ∃ desc, jfsBstMakeDesc objSize objAlign objCount .ok = .ok (desc, .ok) ∧
      ∀ (ptr nilStorage : Addr) (cmp : K → V → Int) (t : Bst K V), PlacedAt desc ptr nilStorage →
        Returns (jfsBstInit nilStorage ⟨⟨ptr, desc⟩, some cmp⟩ .ok) t fun err t' =>
          err = .ok ∧ (HasCapacity t' ⟨ptr, desc⟩ objSize objCount ↔ objCount = 1) := by
  have hobj := (jfsMlgValidDesc_iff _).1 hvalid
  obtain ⟨desc, hrun, hdesc⟩ := jfsBstMakeDesc_spec .ok hobj hfit
  refine ⟨desc, hrun, fun ptr nilStorage cmp t hplaced => ?_⟩
  have hc := hdesc.nodeComponent hplaced
  have hinit : Returns (jfsBstInit nilStorage ⟨⟨ptr, desc⟩, some cmp⟩ .ok) t fun err t' =>
      err = .ok ∧ Initialized t nilStorage ⟨⟨ptr, desc⟩, some cmp⟩ cmp t' :=
    jfsBstInit_spec hc.valid rfl hc.nil_ne_null (aligned_of_dvd hc.nil_aligned)
  refine hinit.mono fun err t' ht' => ⟨ht'.1, fun hcap => ?_, fun hone => ?_⟩
  · have hsize := hdesc.valueSize ht'.2
    rw [hcap.valueSize] at hsize
    have hpos : 0 < objSize.toNat := hobj.size
    exact UInt64.toNat_inj.1 (Nat.eq_of_mul_eq_mul_left hpos (by rw [UInt64.toNat_one, Nat.mul_one, ← hsize]))
  · subst hone
    exact hdesc.hasCapacity hplaced ht'.2

end

/-- A tree for one object of 8 bytes. -/
theorem capacity_iff_one : letI : Build := ⟨true⟩
    ∃ t, jfsBstMakeDesc 8 8 1 .ok = .ok (⟨40, 8, 1⟩, .ok) ∧
      (jfsBstInit 8 (sampleConf 1) .ok).run sampleRecord = .ok (.ok, t) ∧
      HasCapacity t (sampleConf 1).component 8 1 := by
  let : Build := ⟨true⟩
  obtain ⟨desc, hrun, hinit⟩ := capacity_iff (K := Int) (V := Int) 8 8 1 (by decide) (by decide)
  have hdesc : jfsBstMakeDesc 8 8 1 .ok = .ok (⟨40, 8, 1⟩, .ok) := by decide
  rw [hdesc] at hrun
  cases hrun
  have hplaced : PlacedAt ⟨40, 8, 1⟩ 4096 8 :=
    ⟨by decide, by decide, by decide, by decide, by decide, Or.inl (by decide)⟩
  obtain ⟨_, t, hrun, rfl, hcap⟩ := hinit 4096 8 sampleCmp sampleRecord hplaced
  exact ⟨t, hdesc, hrun, hcap.2 rfl⟩

/-- For two objects of 8 bytes the descriptor is one slot of 48 bytes, and the tree stores one value of 16
    bytes. -/
theorem capacity_two : letI : Build := ⟨true⟩
    ∃ t, jfsBstMakeDesc 8 8 2 .ok = .ok (⟨48, 8, 1⟩, .ok) ∧
      (jfsBstInit 8 ⟨⟨4096, ⟨48, 8, 1⟩⟩, some sampleCmp⟩ .ok).run sampleRecord = .ok (.ok, t) ∧
      t.valueSize = 16 ∧ ¬ HasCapacity t ⟨4096, ⟨48, 8, 1⟩⟩ 8 2 := by
  let : Build := ⟨true⟩
  have hrun : resultOf (jfsBstInit 8 ⟨⟨4096, ⟨48, 8, 1⟩⟩, some sampleCmp⟩ .ok) sampleRecord = .ok .ok := by
    decide +kernel
  refine ⟨_, by decide, run_of_resultOf hrun, by decide +kernel, fun hcap => ?_⟩
  exact absurd hcap.valueSize (by decide +kernel)

end Jcl
