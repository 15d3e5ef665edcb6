/-
Module: Jcl.Proofs.FreeList
Layer: Proofs
Purpose: The free list keeps the slots of a component apart. `FlInv` says that the chain from `fl->list`
  and the outstanding slots are a permutation of all slots; linking establishes it, and each of
  `jfs_fl_alloc` and `jfs_fl_free` preserves it. These facts only need that a slot's link can be read
  back and is unaffected by writes to other slots (`LinkLaws`). For byte memory that follows from the
  address arithmetic of a component whose slots hold a link, and `FlRun` then carries the invariant over
  every interleaving of the two operations with the clients' own writes.
Imports: Jcl.Lib.Chain, Jcl.Lib.Slots, Jcl.FreeList, Jcl.Proofs.MemoryLayout
Trusted boundary: none (fully proved)
Main exports: slots, LinkLaws, FlInv, FlInv.link, FlInv.alloc_none, FlInv.alloc_some, FlInv.free, FlRun, freeList_discipline
-/
import Jcl.Lib.Chain
import Jcl.Lib.Slots
import Jcl.FreeList
import Jcl.Proofs.MemoryLayout

namespace Jcl

open ByteMemory (slotAddr toNat_slotAddr inRange_slotAddr slotAddr_disjoint)

/-- The first `n` slots of an array. -/
def slots (memory objSize : UInt64) (n : Nat) : List Addr :=
  (List.range n).map (slotAddr memory objSize)

/-- The slots of a component. -/
def MlgComponent.slots (c : MlgComponent) : List Addr :=
  Jcl.slots c.ptr c.desc.size c.desc.count.toNat

/-- The links of the given slots do not disturb each other. -/
structure LinkLaws (M : Type) [LinkMemory M] (slots : List Addr) : Prop where
  next_self : ∀ (m : M) (v : Addr), ∀ p ∈ slots, LinkMemory.next (LinkMemory.setNext m p v) p = v
  next_other : ∀ (m : M) (v : Addr), ∀ p ∈ slots, ∀ q ∈ slots, q ≠ p →
    LinkMemory.next (LinkMemory.setNext m p v) q = LinkMemory.next m q
  nodup : slots.Nodup
  null_not_mem : null ∉ slots
  length_lt : slots.length < 2 ^ 64

/-- The free slots, in list order, and the outstanding slots share out all slots. -/
def FlInv {M : Type} [LinkMemory M] (slots : List Addr) (mem : M) (fl : Fl)
    (outstanding : List Addr) : Prop :=
  ∃ free, Chain (LinkMemory.next mem) null fl.list free ∧ fl.count.toNat = free.length ∧
    (free ++ outstanding).Perm slots

section

variable {M : Type} [LinkMemory M] {allSlots : List Addr}

/-- Linking the first `n` slots chains them in reverse order. -/
theorem flLinkMemory_chain {memory objSize : UInt64} {n : Nat}
    (laws : LinkLaws M (slots memory objSize n)) (mem : M) (k : Nat) (hk : k ≤ n) :
    let st := (List.range k).foldl (flLinkStep memory objSize) (mem, null)
    Chain (LinkMemory.next st.1) null st.2 (slots memory objSize k).reverse := by
  induction k with
  | zero => simp [slots]
  | succ k ih =>
      have hprev := ih (by omega)
      have hmem : ∀ i, i ≤ k → slotAddr memory objSize i ∈ slots memory objSize n :=
        fun i hi => List.mem_map_of_mem (List.mem_range.2 (by omega))
      have hsplit : slots memory objSize (k + 1) =
          slots memory objSize k ++ [slotAddr memory objSize k] := by
        simp [slots, List.range_succ]
      -- The new slot is none of the linked ones, so its link leaves their chain alone.
      have hfresh : ∀ q ∈ slots memory objSize k, q ≠ slotAddr memory objSize k := by
        have hprefix : (slots memory objSize (k + 1)).Sublist (slots memory objSize n) :=
          (List.range_sublist.2 hk).map _
        have hnodup := laws.nodup.sublist hprefix
        rw [hsplit, List.nodup_append] at hnodup
        intro q hq
        exact hnodup.2.2 q hq _ (by simp)
      simp only [List.range_succ, List.foldl_append, List.foldl_cons, List.foldl_nil]
      rw [hsplit, List.reverse_append]
      refine ⟨rfl, ?_, ?_⟩
      · intro hnull
        exact laws.null_not_mem (hnull ▸ hmem k (Nat.le_refl k))
      · simp only [flLinkStep]
        rw [← slotAddr, laws.next_self _ _ _ (hmem k (Nat.le_refl k))]
        refine hprev.congr fun q hq => ?_
        have hq' := List.mem_reverse.1 hq
        obtain ⟨i, hi, rfl⟩ := List.mem_map.1 hq'
        exact laws.next_other _ _ _ (hmem k (Nat.le_refl k)) _
          (hmem i (by have := List.mem_range.1 hi; omega)) (hfresh _ hq')

/-- Linking all slots puts every one of them on the list. -/
theorem FlInv.link {memory objSize objCount : UInt64}
    (laws : LinkLaws M (slots memory objSize objCount.toNat)) (mem : M) :
    FlInv (slots memory objSize objCount.toNat) (flLinkMemory mem memory objSize objCount).1
      { list := (flLinkMemory mem memory objSize objCount).2, count := objCount } [] := by
  refine ⟨_, flLinkMemory_chain laws mem objCount.toNat (Nat.le_refl _), ?_, ?_⟩
  · simp [slots]
  · rw [List.append_nil]
    exact List.reverse_perm _

/-- The invariant only depends on the links of the slots that are not outstanding. -/
theorem FlInv.congr {mem mem' : M} {fl : Fl} {outstanding : List Addr} (laws : LinkLaws M allSlots)
    (h : FlInv allSlots mem fl outstanding)
    (hsame : ∀ p ∈ allSlots, p ∉ outstanding → LinkMemory.next mem' p = LinkMemory.next mem p) :
    FlInv allSlots mem' fl outstanding := by
  obtain ⟨free, hchain, hcount, hperm⟩ := h
  have hnodup := hperm.nodup_iff.2 laws.nodup
  refine ⟨free, hchain.congr ?_, hcount, hperm⟩
  intro q hq
  apply hsame q (hperm.subset (List.mem_append_left _ hq))
  intro hout
  exact (List.nodup_append.1 hnodup).2.2 q hq q hout rfl

theorem FlInv.perm {mem : M} {fl : Fl} {outstanding outstanding' : List Addr}
    (h : FlInv allSlots mem fl outstanding) (hperm : outstanding.Perm outstanding') :
    FlInv allSlots mem fl outstanding' := by
  obtain ⟨free, hchain, hcount, hall⟩ := h
  exact ⟨free, hchain, hcount, (hperm.symm.append_left free).trans hall⟩

/-- With no slot left, `jfs_fl_alloc` returns `NULL` and every slot is outstanding. -/
theorem FlInv.alloc_none {mem : M} {fl : Fl} {outstanding : List Addr}
    (h : FlInv allSlots mem fl outstanding) (hzero : fl.count = 0) :
    jfsFlAlloc mem fl = .ok (null, fl) ∧ outstanding.Perm allSlots := by
  obtain ⟨free, hchain, hcount, hperm⟩ := h
  refine ⟨by simp [jfsFlAlloc, hzero], ?_⟩
  have hnil : free = [] := by
    apply List.eq_nil_of_length_eq_zero
    rw [← hcount, hzero]
    rfl
  simpa [hnil] using hperm

/-- With a slot left, `jfs_fl_alloc` hands out the head of the list, which was not outstanding. -/
theorem FlInv.alloc_some {mem : M} {fl : Fl} {outstanding : List Addr} (laws : LinkLaws M allSlots)
    (h : FlInv allSlots mem fl outstanding) (hne : fl.count ≠ 0) :
    ∃ fl', jfsFlAlloc mem fl = .ok (fl.list, fl') ∧ fl.list ≠ null ∧ fl.list ∈ allSlots ∧
      fl.list ∉ outstanding ∧ FlInv allSlots mem fl' (fl.list :: outstanding) := by
  obtain ⟨free, hchain, hcount, hperm⟩ := h
  have hnodup := hperm.nodup_iff.2 laws.nodup
  cases free with
  | nil =>
      have hzero : fl.count = 0 := UInt64.toNat_inj.1 hcount
      exact absurd hzero hne
  | cons p free =>
      obtain ⟨hp, hnull, hrest⟩ := hchain
      subst hp
      refine ⟨{ list := LinkMemory.next mem fl.list, count := fl.count - 1 }, ?_, hnull, ?_, ?_,
        free, hrest, ?_, ?_⟩
      · simp [jfsFlAlloc, hne, hnull]
      · exact hperm.subset (by simp)
      · intro hout
        exact (List.nodup_append.1 hnodup).2.2 _ (by simp) _ hout rfl
      · have hpos : 0 < fl.count.toNat := by simp [hcount]
        rw [WordAlign.toNat_pred hpos, hcount]
        simp
      · exact (List.perm_middle).trans hperm

/-- `jfs_fl_free` puts an outstanding slot back on the list. -/
theorem FlInv.free {mem : M} {fl : Fl} {p : Addr} {outstanding : List Addr}
    (laws : LinkLaws M allSlots) (h : FlInv allSlots mem fl (p :: outstanding)) :
    jfsFlFree mem fl p = (LinkMemory.setNext mem p fl.list, { list := p, count := fl.count + 1 }) ∧
      FlInv allSlots (jfsFlFree mem fl p).1 (jfsFlFree mem fl p).2 outstanding := by
  obtain ⟨free, hchain, hcount, hperm⟩ := h
  have hnodup := hperm.nodup_iff.2 laws.nodup
  have hmem : p ∈ allSlots := hperm.subset (by simp)
  have hnull : p ≠ null := fun heq => laws.null_not_mem (heq ▸ hmem)
  have hfresh : p ∉ free := fun hp => (List.nodup_append.1 hnodup).2.2 p hp p (by simp) rfl
  have hrun : jfsFlFree mem fl p =
      (LinkMemory.setNext mem p fl.list, { list := p, count := fl.count + 1 }) := by
    simp [jfsFlFree, hnull]
  refine ⟨hrun, ?_⟩
  rw [hrun]
  refine ⟨p :: free, ⟨rfl, hnull, ?_⟩, ?_, ?_⟩
  · rw [laws.next_self mem fl.list p hmem]
    refine hchain.congr fun q hq => ?_
    have hqmem : q ∈ allSlots := hperm.subset (List.mem_append_left _ hq)
    exact laws.next_other mem fl.list p hmem q hqmem fun heq => hfresh (heq ▸ hq)
  · -- The list never holds more than all slots, so the count does not wrap.
    have hlen := hperm.length_eq
    have hlt := laws.length_lt
    simp only [List.length_append, List.length_cons] at hlen
    rw [UInt64.toNat_add, hcount]
    change (free.length + 1) % 2 ^ 64 = free.length + 1
    exact Nat.mod_eq_of_lt (by omega)
  · exact (List.perm_middle.symm).trans hperm

end

/-! ### Byte memory

A component whose slots hold at least a link and whose bytes do not wrap the address space: slot `i`
occupies the addresses from `ptr + i * size` up to `ptr + (i + 1) * size`, so distinct slots are
disjoint byte ranges and their links cannot disturb each other. -/

/-- The component's bytes lie inside the address space. -/
def MlgComponent.Fits (c : MlgComponent) : Prop :=
  c.ptr.toNat + c.desc.size.toNat * c.desc.count.toNat ≤ 2 ^ 64

instance (c : MlgComponent) : Decidable c.Fits := Nat.decLe _ _

theorem jfsMlgValidComponent_iff (c : MlgComponent) :
    jfsMlgValidComponent c = true ↔ c.desc.Valid ∧ c.ptr ≠ null := by
  simp [jfsMlgValidComponent, jfsMlgValidDesc_iff]

theorem mem_slots {c : MlgComponent} {p : Addr} :
    p ∈ c.slots ↔ ∃ i < c.desc.count.toNat, slotAddr c.ptr c.desc.size i = p := by
  simp [MlgComponent.slots, slots]

/-- Two slots that share an address are the same slot. -/
theorem slots_disjoint {c : MlgComponent} (hpos : 0 < c.desc.size.toNat) (hfit : c.Fits) {p q : Addr}
    (hp : p ∈ c.slots) (hq : q ∈ c.slots) {x : Addr}
    (hxp : ByteMemory.InRange p c.desc.size.toNat x)
    (hxq : ByteMemory.InRange q c.desc.size.toNat x) : p = q := by
  obtain ⟨i, hi, rfl⟩ := mem_slots.1 hp
  obtain ⟨j, hj, rfl⟩ := mem_slots.1 hq
  rw [slotAddr_disjoint hpos hfit hi hj hxp hxq]

theorem slots_nodup {c : MlgComponent} (hpos : 0 < c.desc.size.toNat) (hfit : c.Fits) :
    c.slots.Nodup := by
  apply List.Nodup.map_on _ List.nodup_range
  intro i hi j hj heq
  have hi' := List.mem_range.1 hi
  have hself : ByteMemory.InRange (slotAddr c.ptr c.desc.size i) c.desc.size.toNat
      (slotAddr c.ptr c.desc.size i) := by
    rw [inRange_slotAddr hpos hfit hi' (Nat.le_refl _), toNat_slotAddr hpos hfit hi']
    omega
  exact slotAddr_disjoint hpos hfit hi' (List.mem_range.1 hj) hself (heq ▸ hself)

theorem null_not_mem_slots {c : MlgComponent} (hpos : 0 < c.desc.size.toNat) (hfit : c.Fits)
    (hptr : c.ptr ≠ null) : null ∉ c.slots := by
  intro hmem
  obtain ⟨i, hi, heq⟩ := mem_slots.1 hmem
  have haddr := toNat_slotAddr hpos hfit hi
  rw [heq] at haddr
  apply hptr
  apply UInt64.toNat_inj.1
  have hzero : (null : Addr).toNat = 0 := rfl
  omega

theorem length_slots (c : MlgComponent) : c.slots.length = c.desc.count.toNat := by
  simp [MlgComponent.slots, slots]

theorem inRange_of_le {a : Addr} {n n' : Nat} (hle : n ≤ n') {x : Addr}
    (h : ByteMemory.InRange a n x) : ByteMemory.InRange a n' x := Nat.lt_of_lt_of_le h hle

/-- In byte memory the links of slots that hold a link are independent. -/
theorem byteLinkLaws {c : MlgComponent} (hvalid : c.desc.Valid) (hptr : c.ptr ≠ null)
    (hsize : 8 ≤ c.desc.size.toNat) (hfit : c.Fits) : LinkLaws ByteMemory c.slots where
  next_self m v p _ := ByteMemory.loadWord_storeWord m p v
  next_other m v p hp q hq hne := by
    refine ByteMemory.loadWord_congr fun x hx => ?_
    refine ByteMemory.storeWord_outside m v fun hxp => hne ?_
    exact slots_disjoint hvalid.size hfit hq hp (inRange_of_le hsize hx) (inRange_of_le hsize hxp)
  nodup := slots_nodup hvalid.size hfit
  null_not_mem := null_not_mem_slots hvalid.size hfit hptr
  length_lt := by
    rw [length_slots]
    exact c.desc.count.toNat_lt

/-- A free list at work: memory, the list, and the slots its clients hold. -/
structure FlState where
  mem : ByteMemory
  fl : Fl
  outstanding : List Addr

/-- The states of every run over component `c`: initialisation, allocations, frees of outstanding slots
    or of `NULL`, and clients' writes, which may change any byte outside the slots on the list. -/
inductive FlRun (c : MlgComponent) : FlState → Prop where
  | init {mem mem' : ByteMemory} {fl : Fl} {err : JclErr}
      (h : jfsFlInit mem c .ok = (mem', some fl, err)) : FlRun c ⟨mem', fl, []⟩
  | alloc {s : FlState} {p : Addr} {fl : Fl} (run : FlRun c s)
      (h : jfsFlAlloc s.mem s.fl = .ok (p, fl)) :
      FlRun c ⟨s.mem, fl, if p = null then s.outstanding else p :: s.outstanding⟩
  | free {s : FlState} {p : Addr} (run : FlRun c s) (h : p ∈ s.outstanding ∨ p = null) :
      FlRun c ⟨(jfsFlFree s.mem s.fl p).1, (jfsFlFree s.mem s.fl p).2, s.outstanding.erase p⟩
  | write {s : FlState} {mem : ByteMemory} (run : FlRun c s)
      (h : ∀ p ∈ c.slots, p ∉ s.outstanding →
        ∀ x, ByteMemory.InRange p c.desc.size.toNat x → mem x = s.mem x) :
      FlRun c ⟨mem, s.fl, s.outstanding⟩

section

variable {c : MlgComponent}

theorem jfsFlInit_spec (hvalid : jfsMlgValidComponent c = true) (mem : ByteMemory) :
    jfsFlInit mem c .ok =
      ((flLinkMemory mem c.ptr c.desc.size c.desc.count).1,
        some { list := (flLinkMemory mem c.ptr c.desc.size c.desc.count).2, count := c.desc.count },
        .ok) := by
  simp [jfsFlInit, hvalid]

/-- The invariant holds along every run. -/
theorem FlRun.inv (laws : LinkLaws ByteMemory c.slots) (hsize : 8 ≤ c.desc.size.toNat) {s : FlState}
    (run : FlRun c s) : FlInv c.slots s.mem s.fl s.outstanding := by
  induction run with
  | @init mem mem' fl err h =>
      by_cases hvalid : jfsMlgValidComponent c = true
      · rw [jfsFlInit_spec hvalid] at h
        cases h
        exact FlInv.link laws mem
      · simp [jfsFlInit, hvalid] at h
  | @alloc s p fl run h ih =>
      by_cases hzero : s.fl.count = 0
      · rw [(ih.alloc_none hzero).1] at h
        cases h
        exact ih
      · obtain ⟨fl', hrun, hnull, -, -, hinv⟩ := ih.alloc_some laws hzero
        rw [hrun] at h
        cases h
        simpa [hnull] using hinv
  | @free s p run h ih =>
      rcases h with hout | rfl
      · exact ((ih.perm (List.perm_cons_erase hout)).free laws).2
      · have hnull : null ∉ s.outstanding := by
          intro hmem
          obtain ⟨free, -, -, hperm⟩ := ih
          exact laws.null_not_mem (hperm.subset (List.mem_append_right _ hmem))
        rw [List.erase_of_not_mem hnull]
        simpa [jfsFlFree] using ih
  | @write s mem run h ih =>
      refine ih.congr laws fun p hp hout => ?_
      exact ByteMemory.loadWord_congr fun x hx => h p hp hout x (inRange_of_le hsize hx)

/-- What the free list guarantees in one state. -/
structure FlDiscipline (c : MlgComponent) (s : FlState) : Prop where
  /-- The outstanding slots and the slots reachable from `fl->list` partition the slots, and the count
      is the length of the list. -/
  partition : ∃ free, Chain (ByteMemory.loadWord s.mem) null s.fl.list free ∧
    s.fl.count.toNat = free.length ∧ (free ++ s.outstanding).Nodup ∧
    ∀ p, p ∈ c.slots ↔ p ∈ free ∨ p ∈ s.outstanding
  /-- An allocation yields `NULL` iff every slot is outstanding, and otherwise a slot that is not. -/
  alloc : ∃ p fl, jfsFlAlloc s.mem s.fl = .ok (p, fl) ∧
    (p = null ↔ ∀ q ∈ c.slots, q ∈ s.outstanding) ∧ (p ≠ null → p ∈ c.slots ∧ p ∉ s.outstanding)
  /-- A free writes into no slot that stays outstanding (an allocation writes nothing at all). -/
  free : ∀ p, p ∈ s.outstanding ∨ p = null → ∀ q ∈ s.outstanding.erase p,
    ∀ x, ByteMemory.InRange q c.desc.size.toNat x → (jfsFlFree s.mem s.fl p).1 x = s.mem x

/-- Over every component whose slots hold a link and fit in the address space, initialisation succeeds,
    yields `count` distinct slots, and the discipline holds in every state of every run. -/
theorem freeList_discipline (hvalid : jfsMlgValidComponent c = true)
    (hsize : 8 ≤ c.desc.size.toNat) (hfit : c.Fits) :
    (∀ mem : ByteMemory, ∃ mem' fl, jfsFlInit mem c .ok = (mem', some fl, .ok)) ∧
      c.slots.length = c.desc.count.toNat ∧ c.slots.Nodup ∧
      ∀ s, FlRun c s → FlDiscipline c s := by
  obtain ⟨hdesc, hptr⟩ := (jfsMlgValidComponent_iff c).1 hvalid
  have laws := byteLinkLaws hdesc hptr hsize hfit
  refine ⟨fun mem => ⟨_, _, jfsFlInit_spec hvalid mem⟩, length_slots c, laws.nodup, ?_⟩
  intro s run
  have hinv := run.inv laws hsize
  obtain ⟨free, hchain, hcount, hperm⟩ := run.inv laws hsize
  have hnodup := hperm.nodup_iff.2 laws.nodup
  refine ⟨⟨free, hchain, hcount, hnodup, fun p => ?_⟩, ?_, ?_⟩
  · rw [← hperm.mem_iff, List.mem_append]
  · by_cases hzero : s.fl.count = 0
    · obtain ⟨hrun, hall⟩ := hinv.alloc_none hzero
      exact ⟨null, s.fl, hrun, by simp [hall.mem_iff], by simp⟩
    · obtain ⟨fl', hrun, hnull, hmem, hout, -⟩ := hinv.alloc_some laws hzero
      refine ⟨s.fl.list, fl', hrun, ?_, fun _ => ⟨hmem, hout⟩⟩
      exact ⟨fun h => absurd h hnull, fun h => absurd (h _ hmem) hout⟩
  · intro p hp q hq x hx
    rcases hp with hp | rfl
    · have hpmem : p ∈ c.slots := hperm.subset (List.mem_append_right _ hp)
      have hqout : q ∈ s.outstanding := List.mem_of_mem_erase hq
      have hqmem : q ∈ c.slots := hperm.subset (List.mem_append_right _ hqout)
      have hne : q ≠ p := by
        rintro rfl
        exact (List.nodup_append.1 hnodup).2.1.not_mem_erase hq
      have hnull : p ≠ null := fun heq => laws.null_not_mem (heq ▸ hpmem)
      simp only [jfsFlFree, hnull, if_false]
      refine ByteMemory.storeWord_outside s.mem s.fl.list fun hxp => hne ?_
      exact slots_disjoint hdesc.size hfit hqmem hpmem hx (inRange_of_le hsize hxp)
    · simp [jfsFlFree]

end

/-- Two slots of 16 bytes at address 4096, with the last slot allocated from zeroed memory. -/
theorem freeList_discipline_two_slots :
    ∃ s, FlRun ⟨4096, ⟨16, 8, 2⟩⟩ s ∧ s.outstanding = [4112] ∧ FlDiscipline ⟨4096, ⟨16, 8, 2⟩⟩ s := by
  have run : FlRun ⟨4096, ⟨16, 8, 2⟩⟩ _ := .alloc (@FlRun.init _ (fun _ => 0) _ _ _ rfl) rfl
  exact ⟨_, run, rfl, (freeList_discipline (by decide) (by decide) (by decide)).2.2.2 _ run⟩

end Jcl
