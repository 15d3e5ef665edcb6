/-
Module: Jcl.Proofs.MemoryRuns
Layer: Proofs
Purpose: A block of `jfs_mlg_memory_init` at work: free lists over any of its components in one memory, with calls on
  them in any order. A call on one list leaves every byte outside its component alone, so every list keeps its
  invariant whatever happens to the others, and no two slots that clients hold share a byte.
Imports: Jcl.Proofs.FreeList, Jcl.Proofs.SmallSlots, Jcl.Lib.System
Trusted boundary: human-reviewed spec (MemState, MemCall, performMem, memorySystem, Apart, MemServed)
Main exports: MemCall, performMem, memorySystem, Apart, MemServed, lists_apart
-/
import Jcl.Proofs.FreeList
import Jcl.Proofs.SmallSlots
import Jcl.Lib.System

namespace Jcl

open ByteMemory (slotAddr toNat_slotAddr inRange_slotAddr InRange)

/-- The memory, the free lists by the index of their component, and the slots that clients hold of each. -/
structure MemState where
  mem : ByteMemory
  lists : Nat → Option Fl
  outstanding : Nat → List Addr

/-- What clients do: they make a list of a component, allocate from it and free to it, or write. -/
inductive MemCall where
  | init (i : Nat)
  | alloc (i : Nat)
  | free (i : Nat) (ptr : Addr)
  | write (mem : ByteMemory)

/-- The state after a call on component `i`. -/
def MemState.set (s : MemState) (i : Nat) (mem : ByteMemory) (fl : Option Fl) (held : List Addr) : MemState where
  mem := mem
  lists := Function.update s.lists i fl
  outstanding := Function.update s.outstanding i held

/-- A call on the components of a block. -/
def performMem (components : List MlgComponent) (s : MemState) : MemCall → Except Fault MemState
  | .init i =>
      match components[i]? with
      | none => .error .outOfBounds
      | some c =>
          let (mem, fl, _) := jfsFlInit s.mem c .ok
          .ok (s.set i mem fl [])
  | .alloc i =>
      match s.lists i with
      | none => .error .nullDeref
      | some fl => do
          let (ptr, fl) ← jfsFlAlloc s.mem fl
          return s.set i s.mem (some fl) (if ptr = null then s.outstanding i else ptr :: s.outstanding i)
  | .free i ptr =>
      match s.lists i with
      | none => .error .nullDeref
      | some fl =>
          let (mem, fl) := jfsFlFree s.mem fl ptr
          .ok (s.set i mem (some fl) ((s.outstanding i).erase ptr))
  | .write mem => .ok { s with mem := mem }

/-- There is a free list of component `i`. -/
structure Listed (components : List MlgComponent) (s : MemState) (i : Nat) (c : MlgComponent) (fl : Fl) : Prop where
  component : components[i]? = some c
  list : s.lists i = some fl

/-- A list is made once of a component with room for the links, only a slot that is held or `NULL` is freed, and no
    client writes to a slot that is on a list. -/
def MemCall.Allowed (components : List MlgComponent) (s : MemState) : MemCall → Prop
  | .init i => s.lists i = none ∧ ∃ c, components[i]? = some c ∧ 8 ≤ c.desc.size.toNat
  | .alloc i => ∃ c fl, Listed components s i c fl
  | .free i ptr => (∃ c fl, Listed components s i c fl) ∧ (ptr ∈ s.outstanding i ∨ ptr = null)
  | .write mem => ∀ i c fl, Listed components s i c fl → ∀ p ∈ c.slots, p ∉ s.outstanding i →
      ∀ x, InRange p c.desc.size.toNat x → mem x = s.mem x

/-- The runs over a block, from any contents of it and without lists. -/
def memorySystem (components : List MlgComponent) : System MemState MemCall where
  init s := s.lists = fun _ => none
  step s call s' := call.Allowed components s ∧ performMem components s call = .ok s'

/-- Every list shares its component out with its clients, and the slots that are held have no byte in common with each
    other, nor with those that are on a list. -/
structure Apart (components : List MlgComponent) (s : MemState) : Prop where
  shared : ∀ i c fl, Listed components s i c fl → FlInv c.slots s.mem fl (s.outstanding i)
  disjoint : ∀ i j c d fl fl', Listed components s i c fl → Listed components s j d fl' →
    ∀ p ∈ s.outstanding i, ∀ q ∈ s.outstanding j, ∀ x, InRange p c.desc.size.toNat x →
      InRange q d.desc.size.toNat x → i = j ∧ p = q
  free : ∀ i j c d fl fl', Listed components s i c fl → Listed components s j d fl' →
    ∀ p ∈ s.outstanding i, ∀ q ∈ d.slots, q ∉ s.outstanding j → ∀ x, InRange p c.desc.size.toNat x →
      ¬ InRange q d.desc.size.toNat x

/-- The bytes of a component. -/
def MlgComponent.Holds (c : MlgComponent) (x : Addr) : Prop :=
  InRange c.ptr (c.desc.size.toNat * c.desc.count.toNat) x

/-- The component that a call works on. -/
def MemCall.On (i : Nat) : MemCall → Prop
  | .init j => j = i
  | .alloc j => j = i
  | .free j _ => j = i
  | .write _ => False

/-- What one call does that is no write of the clients. -/
structure MemServed (components : List MlgComponent) (s : MemState) (call : MemCall) (s' : MemState) : Prop where
  /-- It changes nothing outside the component that it works on. -/
  outside : ∀ i c, call.On i → components[i]? = some c → ∀ x, ¬ c.Holds x → s'.mem x = s.mem x
  /-- It changes no slot that stays held. -/
  held : ∀ i, call.On i → ∀ j c fl, Listed components s j c fl → ∀ p ∈ s.outstanding j, p ∈ s'.outstanding j →
    ∀ x, InRange p c.desc.size.toNat x → s'.mem x = s.mem x
  /-- An allocation grants a slot that is not held, unless all slots of the component are. -/
  granted : ∀ i c, call = .alloc i → components[i]? = some c →
    s'.outstanding = s.outstanding ∧ (∀ p ∈ c.slots, p ∈ s.outstanding i) ∨
      ∃ p ∈ c.slots, p ∉ s.outstanding i ∧
        s'.outstanding = Function.update s.outstanding i (p :: s.outstanding i)

/-- Valid components in the address space, one after the other. -/
structure Separate (components : List MlgComponent) : Prop where
  valid : ∀ c ∈ components, jfsMlgValidComponent c = true
  fits : ∀ c ∈ components, c.Fits
  apart : components.Pairwise fun c d => c.region.stop ≤ d.region.start

variable {components : List MlgComponent} {s s' : MemState} {call : MemCall} {i j : Nat} {c d : MlgComponent}
  {fl fl' : Fl}

@[simp] theorem MemState.set_lists (s : MemState) (i : Nat) (mem : ByteMemory) (fl : Option Fl) (held : List Addr) :
    (s.set i mem fl held).lists i = fl := Function.update_self ..

@[simp] theorem MemState.set_outstanding (s : MemState) (i : Nat) (mem : ByteMemory) (fl : Option Fl)
    (held : List Addr) : (s.set i mem fl held).outstanding i = held := Function.update_self ..

theorem MemState.set_lists_of_ne (s : MemState) (h : j ≠ i) {mem : ByteMemory} {fl : Option Fl} {held : List Addr} :
    (s.set i mem fl held).lists j = s.lists j := Function.update_of_ne h ..

theorem MemState.set_outstanding_of_ne (s : MemState) (h : j ≠ i) {mem : ByteMemory} {fl : Option Fl}
    {held : List Addr} : (s.set i mem fl held).outstanding j = s.outstanding j := Function.update_of_ne h ..

/-! ### The components of a block -/

/-- The components of a block that `jfs_mlg_memory_init` laid out. -/
theorem LaidOut.separate {layout : MlgLayout} {base : Addr} {size : UInt64} {memory : MlgMemory}
    (h : LaidOut layout base size memory) (hvalid : layout.Valid) (hspace : base.toNat + size.toNat ≤ 2 ^ 64) :
    Separate memory.components := by
  have hpairs := h.disjoint
  simp only [MlgMemory.regions, List.pairwise_cons, List.pairwise_map] at hpairs
  obtain ⟨hrecord, -, -, happart⟩ := hpairs
  have hregion : ∀ c ∈ memory.components, c.region ∈ memory.regions layout.headerDesc := by
    intro c hc
    simp only [MlgMemory.regions, List.mem_cons]
    exact .inr (.inr (.inr (List.mem_map_of_mem hc)))
  refine ⟨?_, ?_, happart⟩
  · intro c hc
    have hdesc : c.desc ∈ layout.descriptions := by
      rw [← h.descs]
      exact List.mem_map_of_mem hc
    refine (jfsMlgValidComponent_iff c).2 ⟨hvalid.descs _ hdesc, ?_⟩
    -- The record is before the component.
    have hafter : memory.self.toNat + 24 ≤ c.ptr.toNat := by
      refine hrecord c.region ?_
      exact .tail _ (.tail _ (List.mem_map_of_mem hc))
    intro hnull
    rw [hnull] at hafter
    exact absurd hafter (Nat.not_le.2 (Nat.lt_of_lt_of_le (by decide) (Nat.le_add_left 24 _)))
  · intro c hc
    exact Nat.le_trans (h.inside _ (hregion c hc)).2 hspace

theorem Separate.holds_iff (h : Separate components) (hc : components[i]? = some c) {x : Addr} :
    c.Holds x ↔ c.region.start ≤ x.toNat ∧ x.toNat < c.region.stop :=
  ByteMemory.inRange_iff (h.fits c (List.mem_of_getElem? hc)) x

/-- No byte is in two components. -/
theorem Separate.index_eq (h : Separate components) (hc : components[i]? = some c) (hd : components[j]? = some d)
    {x : Addr} (hx : c.Holds x) (hx' : d.Holds x) : i = j := by
  rw [h.holds_iff hc] at hx
  rw [h.holds_iff hd] at hx'
  obtain ⟨hi, rfl⟩ := List.getElem?_eq_some_iff.1 hc
  obtain ⟨hj, rfl⟩ := List.getElem?_eq_some_iff.1 hd
  have hpairs := List.pairwise_iff_getElem.1 h.apart
  rcases Nat.lt_trichotomy i j with hlt | heq | hlt
  · have := hpairs i j hi hj hlt
    omega
  · exact heq
  · have := hpairs j i hj hi hlt
    omega

/-- The bytes of a slot are bytes of the component. -/
theorem holds_of_slot (hvalid : jfsMlgValidComponent c = true) (hfit : c.Fits) {p x : Addr} (hp : p ∈ c.slots)
    {n : Nat} (hn : n ≤ c.desc.size.toNat) (hx : InRange p n x) : c.Holds x := by
  obtain ⟨k, hk, rfl⟩ := mem_slots.1 hp
  obtain ⟨hdesc, -⟩ := (jfsMlgValidComponent_iff c).1 hvalid
  have hnext : c.desc.size.toNat * (k + 1) ≤ c.desc.size.toNat * c.desc.count.toNat := Nat.mul_le_mul_left _ hk
  rw [Nat.mul_add, Nat.mul_one] at hnext
  rw [inRange_slotAddr hdesc.size hfit hk hn] at hx
  rw [MlgComponent.Holds, ByteMemory.inRange_iff hfit]
  omega

/-- No byte is in two slots. -/
theorem Separate.slot_eq (h : Separate components) (hc : components[i]? = some c) (hd : components[j]? = some d)
    {p q x : Addr} (hp : p ∈ c.slots) (hq : q ∈ d.slots) (hx : InRange p c.desc.size.toNat x)
    (hx' : InRange q d.desc.size.toNat x) : i = j ∧ p = q := by
  have hcmem := List.mem_of_getElem? hc
  have hdmem := List.mem_of_getElem? hd
  have hholds := holds_of_slot (h.valid c hcmem) (h.fits c hcmem) hp (Nat.le_refl _) hx
  have hholds' := holds_of_slot (h.valid d hdmem) (h.fits d hdmem) hq (Nat.le_refl _) hx'
  obtain rfl := h.index_eq hc hd hholds hholds'
  cases hc.symm.trans hd
  have hsize := ((jfsMlgValidComponent_iff c).1 (h.valid c hcmem)).1.size
  exact ⟨rfl, slots_disjoint hsize (h.fits c hcmem) hp hq hx hx'⟩

/-! ### What a call writes -/

/-- Making a list writes to the component. -/
theorem jfsFlInit_outside (hvalid : jfsMlgValidComponent c = true) (hfit : c.Fits) (hroom : 8 ≤ c.desc.size.toNat)
    (mem : ByteMemory) {x : Addr} (hx : ¬ c.Holds x) : (jfsFlInit mem c .ok).1 x = mem x := by
  rw [jfsFlInit_spec hvalid]
  refine flLinkMemory_outside mem fun k hk hin => hx ?_
  exact holds_of_slot hvalid hfit (mem_slots.2 ⟨k, hk, rfl⟩) hroom hin

/-- Freeing writes to the slot that is freed. -/
theorem jfsFlFree_outside (mem : ByteMemory) (fl : Fl) {p x : Addr} (hx : p ≠ null → ¬ InRange p 8 x) :
    (jfsFlFree mem fl p).1 x = mem x := by
  unfold jfsFlFree
  by_cases hnull : p = null
  · rw [if_pos hnull]
  · rw [if_neg hnull]
    exact ByteMemory.storeWord_outside mem fl.list (hx hnull)

/-- A run of one list, where the bytes of its component did not change. -/
theorem FlRun.elsewhere {mem : ByteMemory} {st : FlState} (run : FlRun c st)
    (hvalid : jfsMlgValidComponent c = true) (hfit : c.Fits) (hsame : ∀ x, c.Holds x → mem x = st.mem x) :
    FlRun c ⟨mem, st.fl, st.outstanding⟩ :=
  run.write fun _ hp _ x hx => hsame x (holds_of_slot hvalid hfit hp (Nat.le_refl _) hx)

/-! ### Every call -/

/-- Every list is over a component with room for the links, and sees a run of its own. -/
structure MemInv (components : List MlgComponent) (s : MemState) : Prop where
  linked : ∀ i fl, s.lists i = some fl → ∃ c, Listed components s i c fl ∧ 8 ≤ c.desc.size.toNat
  run : ∀ i c fl, Listed components s i c fl → FlRun c ⟨s.mem, fl, s.outstanding i⟩

theorem MemInv.room (h : MemInv components s) (hlinked : Listed components s i c fl) : 8 ≤ c.desc.size.toNat := by
  obtain ⟨d, hd, hroom⟩ := h.linked i fl hlinked.list
  cases hlinked.component.symm.trans hd.component
  exact hroom

theorem Separate.laws (h : Separate components) (hc : components[i]? = some c) (hroom : 8 ≤ c.desc.size.toNat) :
    LinkLaws ByteMemory c.slots := by
  have hmem := List.mem_of_getElem? hc
  obtain ⟨hdesc, hptr⟩ := (jfsMlgValidComponent_iff c).1 (h.valid c hmem)
  exact byteLinkLaws hdesc hptr hroom (h.fits c hmem)

theorem MemInv.shared (h : MemInv components s) (hsep : Separate components) (hlinked : Listed components s i c fl) :
    FlInv c.slots s.mem fl (s.outstanding i) :=
  (h.run i c fl hlinked).inv (hsep.laws hlinked.component (h.room hlinked)) (h.room hlinked)

/-- The slots of a component that clients hold. -/
theorem MemInv.outstanding_slots (h : MemInv components s) (hsep : Separate components)
    (hlinked : Listed components s i c fl) : s.outstanding i ⊆ c.slots := by
  obtain ⟨free, -, -, hperm⟩ := h.shared hsep hlinked
  exact fun p hp => hperm.subset (List.mem_append_right _ hp)

theorem MemInv.apart (h : MemInv components s) (hsep : Separate components) : Apart components s where
  shared _ _ _ hlinked := h.shared hsep hlinked
  disjoint i j c d fl fl' hlinked hlinked' p hp q hq x hx hx' :=
    hsep.slot_eq hlinked.component hlinked'.component (h.outstanding_slots hsep hlinked hp)
      (h.outstanding_slots hsep hlinked' hq) hx hx'
  free i j c d fl fl' hlinked hlinked' p hp q hq hfree x hx hx' := by
    obtain ⟨rfl, rfl⟩ := hsep.slot_eq hlinked.component hlinked'.component (h.outstanding_slots hsep hlinked hp) hq hx
      hx'
    exact hfree hp

/-- A call on one component, which the runs of the other lists do not notice. -/
theorem MemInv.on (h : MemInv components s) (hsep : Separate components) (hc : components[i]? = some c)
    (hroom : 8 ≤ c.desc.size.toNat) {mem : ByteMemory} {held : List Addr}
    (houtside : ∀ x, ¬ c.Holds x → mem x = s.mem x) (hrun : FlRun c ⟨mem, fl, held⟩) :
    MemInv components (s.set i mem (some fl) held) where
  linked j fl' hlist := by
    by_cases hj : j = i
    · subst hj
      exact ⟨c, ⟨hc, hlist⟩, hroom⟩
    · obtain ⟨d, hd, hroom'⟩ := h.linked j fl' ((s.set_lists_of_ne hj).symm.trans hlist)
      exact ⟨d, ⟨hd.component, hlist⟩, hroom'⟩
  run j d fl' hlinked := by
    obtain ⟨hd, hlist⟩ := hlinked
    by_cases hj : j = i
    · subst hj
      cases hc.symm.trans hd
      rw [MemState.set_lists] at hlist
      cases hlist
      rw [MemState.set_outstanding]
      exact hrun
    · rw [s.set_lists_of_ne hj] at hlist
      rw [s.set_outstanding_of_ne hj]
      have hmem := List.mem_of_getElem? hd
      refine (h.run j d fl' ⟨hd, hlist⟩).elsewhere (hsep.valid d hmem) (hsep.fits d hmem) fun x hx => ?_
      exact houtside x fun hx' => hj (hsep.index_eq hd hc hx hx')

/-- A call on one component leaves the slots of the others as they are. -/
theorem MemInv.held_elsewhere (h : MemInv components s) (hsep : Separate components) (hc : components[i]? = some c)
    {mem : ByteMemory} (houtside : ∀ x, ¬ c.Holds x → mem x = s.mem x) (hlinked : Listed components s j d fl)
    (hne : j ≠ i) {p x : Addr} (hp : p ∈ s.outstanding j) (hx : InRange p d.desc.size.toNat x) : mem x = s.mem x := by
  have hmem := List.mem_of_getElem? hlinked.component
  have hholds := holds_of_slot (hsep.valid d hmem) (hsep.fits d hmem) (h.outstanding_slots hsep hlinked hp)
    (Nat.le_refl _) hx
  exact houtside x fun hx' => hne (hsep.index_eq hlinked.component hc hholds hx')

theorem init_served (h : MemInv components s) (hsep : Separate components) (hlist : s.lists i = none)
    (hc : components[i]? = some c) (hroom : 8 ≤ c.desc.size.toNat) :
    ∃ s', performMem components s (.init i) = .ok s' ∧ MemInv components s' ∧
      MemServed components s (.init i) s' := by
  have hmem := List.mem_of_getElem? hc
  have hvalid := hsep.valid c hmem
  have houtside : ∀ x, ¬ c.Holds x → (jfsFlInit s.mem c .ok).1 x = s.mem x :=
    fun x hx => jfsFlInit_outside hvalid (hsep.fits c hmem) hroom s.mem hx
  have hspec := jfsFlInit_spec hvalid s.mem
  rw [hspec] at houtside
  refine ⟨_, by simp only [performMem, hc, hspec], h.on hsep hc hroom houtside (.init hspec), ?_, ?_, ?_⟩
  · rintro _ d rfl hd
    cases hc.symm.trans hd
    exact houtside
  · rintro _ rfl j d fl hlinked p hp - x hx
    refine h.held_elsewhere hsep hc houtside hlinked ?_ hp hx
    rintro rfl
    cases hlist.symm.trans hlinked.list
  · exact fun _ _ hcall => MemCall.noConfusion hcall

theorem performMem_alloc (hlinked : Listed components s i c fl) {p : Addr} (h : jfsFlAlloc s.mem fl = .ok (p, fl')) :
    performMem components s (.alloc i) =
      .ok (s.set i s.mem (some fl') (if p = null then s.outstanding i else p :: s.outstanding i)) := by
  simp only [performMem, hlinked.list, h]
  rfl

theorem alloc_served (h : MemInv components s) (hsep : Separate components) (hlinked : Listed components s i c fl) :
    ∃ s', performMem components s (.alloc i) = .ok s' ∧ MemInv components s' ∧
      MemServed components s (.alloc i) s' := by
  have hroom := h.room hlinked
  have hinv := h.shared hsep hlinked
  have hrun := h.run i c fl hlinked
  by_cases hzero : fl.count = 0
  · obtain ⟨halloc, hall⟩ := hinv.alloc_none hzero
    have hnext : FlRun c ⟨s.mem, fl, s.outstanding i⟩ := hrun.alloc halloc
    refine ⟨_, performMem_alloc hlinked halloc, h.on hsep hlinked.component hroom (fun _ _ => rfl) hnext,
      fun _ _ _ _ _ _ => rfl, fun _ _ _ _ _ _ _ _ _ _ _ => rfl, ?_⟩
    rintro j d hcall hd
    cases hcall
    cases hd.symm.trans hlinked.component
    exact .inl ⟨Function.update_eq_self i s.outstanding, fun p hp => hall.mem_iff.2 hp⟩
  · obtain ⟨fl', halloc, hnull, hslot, hfresh, -⟩ :=
      hinv.alloc_some (hsep.laws hlinked.component hroom) hzero
    have hnext : FlRun c ⟨s.mem, fl', if fl.list = null then s.outstanding i else fl.list :: s.outstanding i⟩ :=
      hrun.alloc halloc
    refine ⟨_, performMem_alloc hlinked halloc, h.on hsep hlinked.component hroom (fun _ _ => rfl) hnext,
      fun _ _ _ _ _ _ => rfl, fun _ _ _ _ _ _ _ _ _ _ _ => rfl, ?_⟩
    rintro j d hcall hd
    cases hcall
    cases hd.symm.trans hlinked.component
    refine .inr ⟨fl.list, hslot, hfresh, ?_⟩
    rw [if_neg hnull]
    rfl

theorem free_served (h : MemInv components s) (hsep : Separate components) (hlinked : Listed components s i c fl)
    {ptr : Addr} (hptr : ptr ∈ s.outstanding i ∨ ptr = null) :
    ∃ s', performMem components s (.free i ptr) = .ok s' ∧ MemInv components s' ∧
      MemServed components s (.free i ptr) s' := by
  have hmem := List.mem_of_getElem? hlinked.component
  have hvalid := hsep.valid c hmem
  have hfit := hsep.fits c hmem
  have hroom := h.room hlinked
  have hslots := h.outstanding_slots hsep hlinked
  have hsize := ((jfsMlgValidComponent_iff c).1 hvalid).1.size
  have hslot : ptr ≠ null → ptr ∈ c.slots := fun hnull => hslots (hptr.resolve_right hnull)
  have houtside : ∀ x, ¬ c.Holds x → (jfsFlFree s.mem fl ptr).1 x = s.mem x := by
    intro x hx
    exact jfsFlFree_outside s.mem fl fun hnull hin => hx (holds_of_slot hvalid hfit (hslot hnull) hroom hin)
  refine ⟨_, by simp only [performMem, hlinked.list], h.on hsep hlinked.component hroom houtside ((h.run i c fl hlinked).free hptr),
    ?_, ?_, ?_⟩
  · rintro _ d rfl hd
    cases hlinked.component.symm.trans hd
    exact houtside
  · rintro _ rfl j d fl' hlinked' p hp hheld x hx
    by_cases hj : j = i
    · subst hj
      cases hlinked.component.symm.trans hlinked'.component
      -- The slot is not the one that was freed, and shares no byte with it.
      refine jfsFlFree_outside s.mem fl fun hnull hin => ?_
      have heq : p = ptr :=
        slots_disjoint hsize hfit (hslots hp) (hslot hnull) hx (inRange_of_le hroom hin)
      obtain ⟨free, -, -, hperm⟩ := h.shared hsep hlinked
      have hnodup := hperm.nodup_iff.2 (hsep.laws hlinked.component hroom).nodup
      rw [heq, MemState.set_outstanding] at hheld
      exact (List.nodup_append.1 hnodup).2.1.not_mem_erase hheld
    · exact h.held_elsewhere hsep hlinked.component houtside hlinked' hj hp hx
  · exact fun _ _ hcall => MemCall.noConfusion hcall

/-- Clients write to what is not on a list. -/
theorem MemInv.written (h : MemInv components s) {mem : ByteMemory}
    (hallowed : (MemCall.write mem).Allowed components s) : MemInv components { s with mem := mem } where
  linked i fl hlist := by
    obtain ⟨c, hlinked, hroom⟩ := h.linked i fl hlist
    exact ⟨c, ⟨hlinked.component, hlist⟩, hroom⟩
  run i c fl hlinked := (h.run i c fl ⟨hlinked.component, hlinked.list⟩).write
    (hallowed i c fl ⟨hlinked.component, hlinked.list⟩)

theorem MemInv.step (h : MemInv components s) (hsep : Separate components) (hallowed : call.Allowed components s) :
    ∃ s', performMem components s call = .ok s' ∧ MemInv components s' ∧ MemServed components s call s' := by
  cases call with
  | init i =>
      obtain ⟨hlist, c, hc, hroom⟩ := hallowed
      exact init_served h hsep hlist hc hroom
  | alloc i =>
      obtain ⟨c, fl, hlinked⟩ := hallowed
      exact alloc_served h hsep hlinked
  | free i ptr =>
      obtain ⟨⟨c, fl, hlinked⟩, hptr⟩ := hallowed
      exact free_served h hsep hlinked hptr
  | write mem =>
      refine ⟨_, rfl, h.written hallowed, fun _ _ hon => hon.elim, fun _ hon => hon.elim, ?_⟩
      exact fun _ _ hcall => MemCall.noConfusion hcall

/-! ### Runs -/

/-- Over every block that is laid out in the address space, in every run of calls on any number of lists, the lists
    and what clients hold of them stay apart, and every call returns and changes nothing but its own component. -/
theorem lists_apart {layout : MlgLayout} {base : Addr} {size : UInt64} {memory : MlgMemory}
    (hlaid : LaidOut layout base size memory) (hvalid : layout.Valid) (hspace : base.toNat + size.toNat ≤ 2 ^ 64)
    {calls : List MemCall} (run : (memorySystem memory.components).Reaches calls s) :
    Apart memory.components s ∧ ∀ call : MemCall, call.Allowed memory.components s →
      ∃ s', performMem memory.components s call = .ok s' ∧ MemServed memory.components s call s' := by
  have hsep := hlaid.separate hvalid hspace
  have hinv : MemInv memory.components s := by
    refine run.invariant ?_ ?_
    · intro s hstart
      have hnone : ∀ i fl, s.lists i ≠ some fl := fun i fl => by simp [show s.lists = fun _ => none from hstart]
      refine ⟨?_, ?_⟩
      · exact fun i fl hlist => absurd hlist (hnone i fl)
      · exact fun i c fl hlinked => absurd hlinked.list (hnone i fl)
    · rintro s call s' h ⟨hallowed, hperform⟩
      obtain ⟨s'', hperform', hinv, -⟩ := h.step hsep hallowed
      cases hperform.symm.trans hperform'
      exact hinv
  refine ⟨hinv.apart hsep, fun call hallowed => ?_⟩
  obtain ⟨s', hperform, -, hserved⟩ := hinv.step hsep hallowed
  exact ⟨s', hperform, hserved⟩

theorem memory_listed {calls : List MemCall} (run : (memorySystem components).Reaches calls s) (hnone : s.lists i = none)
    (hc : components[i]? = some c) (hroom : 8 ≤ c.desc.size.toNat) (h : performMem components s (.init i) = .ok s') :
    (memorySystem components).Reaches (calls ++ [.init i]) s' := run.step ⟨⟨hnone, c, hc, hroom⟩, h⟩

theorem memory_allocated {calls : List MemCall} (run : (memorySystem components).Reaches calls s)
    (hlinked : Listed components s i c fl) (h : performMem components s (.alloc i) = .ok s') :
    (memorySystem components).Reaches (calls ++ [.alloc i]) s' := run.step ⟨⟨c, fl, hlinked⟩, h⟩

/-- A layout of two slots of 16 bytes and three of 24 bytes, for a block at address 4096. -/
def twoLists : MlgLayout where
  descriptions := [⟨16, 8, 2⟩, ⟨24, 8, 3⟩]
  descriptionsCount := 2
  headerDesc := ⟨4, 4, 1⟩
  length_descriptions := rfl

/-- What `jfs_mlg_memory_init` makes of that block. -/
def twoListsMemory : MlgMemory := ⟨4096, 4120, [⟨4192, ⟨16, 8, 2⟩⟩, ⟨4224, ⟨24, 8, 3⟩⟩], 2, 4184⟩

theorem twoLists_valid : twoLists.Valid where
  count := by decide
  header := ⟨⟨2, rfl⟩, by decide, by decide⟩
  descs d hd := by
    simp only [twoLists, List.mem_cons, List.not_mem_nil, or_false] at hd
    rcases hd with rfl | rfl
    · exact ⟨⟨3, rfl⟩, by decide, by decide⟩
    · exact ⟨⟨3, rfl⟩, by decide, by decide⟩

theorem twoListsMemory_laidOut : LaidOut twoLists 4096 200 twoListsMemory := by
  refine laidOut_of_regions twoLists_valid (by decide) ?_ rfl rfl rfl rfl
  decide +kernel

/-- Both components of that block are made lists, and a slot is allocated from each. -/
theorem lists_apart_two : @jfsMlgMemoryInit ⟨true⟩ ⟨fun _ => true, fun _ _ => some 4096⟩ twoLists .ok =
      .ok (.ok, some twoListsMemory) ∧
    ∃ s, (memorySystem twoListsMemory.components).Reaches [.init 0, .init 1, .alloc 0, .alloc 1] s ∧
      s.outstanding 0 = [4208] ∧ s.outstanding 1 = [4272] ∧ Apart twoListsMemory.components s ∧
      ∀ call : MemCall, call.Allowed twoListsMemory.components s →
        ∃ s', performMem twoListsMemory.components s call = .ok s' ∧
          MemServed twoListsMemory.components s call s' := by
  refine ⟨rfl, ?_⟩
  have hstart : (memorySystem twoListsMemory.components).Reaches [] ⟨fun _ => 0, fun _ => none, fun _ => []⟩ := .init rfl
  have hlists := memory_listed (i := 1) (memory_listed (i := 0) hstart rfl rfl (by decide) rfl) rfl rfl (by decide) rfl
  have run := memory_allocated (i := 1) (memory_allocated (i := 0) hlists ⟨rfl, rfl⟩ rfl) ⟨rfl, rfl⟩ rfl
  exact ⟨_, run, rfl, rfl, lists_apart twoListsMemory_laidOut twoLists_valid (by decide) run⟩

end Jcl
