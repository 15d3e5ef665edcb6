/-
Module: Jcl.Proofs.SmallSlots
Layer: Proofs
Purpose: What `fl_link_memory` does with a component whose slots are smaller than a link. `free_list.c`
  defines `MIN_OBJ_SIZE`, the size of a link, and uses it nowhere: a component with smaller slots is accepted,
  and the link of its last slot is stored across the end of the component.
Imports: Jcl.Proofs.FreeList
Trusted boundary: none (fully proved)
Main exports: LinksSlots, flLinkMemory_outside, flLinkMemory_escapes, linksSlots_iff
-/
import Jcl.Proofs.FreeList

namespace Jcl

open ByteMemory (slotAddr toNat_slotAddr inRange_slotAddr InRange)

/-- From any memory, `jfs_fl_init` accepts the component, writes inside its bytes only, and the walk from
    `fl->list` visits every slot once and then reaches `NULL`. -/
def LinksSlots (c : MlgComponent) : Prop :=
  ∀ mem : ByteMemory, ∃ mem' fl visited, jfsFlInit mem c .ok = (mem', some fl, .ok) ∧
    (∀ x, ¬ InRange c.ptr (c.desc.size.toNat * c.desc.count.toNat) x → mem' x = mem x) ∧
    Chain (LinkMemory.next mem') null fl.list visited ∧ visited.Nodup ∧ visited.Perm c.slots

/-- The head of the list after the first `n` slots were linked. -/
def linkHead (memory objSize : UInt64) : Nat → Addr
  | 0 => null
  | n + 1 => slotAddr memory objSize n

variable {memory objSize : UInt64} {n : Nat}

theorem flLink_succ (mem : ByteMemory) :
    (List.range (n + 1)).foldl (flLinkStep memory objSize) (mem, null) =
      flLinkStep memory objSize ((List.range n).foldl (flLinkStep memory objSize) (mem, null)) n := by
  rw [List.range_succ, List.foldl_append]
  rfl

theorem flLink_head (mem : ByteMemory) :
    ((List.range n).foldl (flLinkStep memory objSize) (mem, null)).2 = linkHead memory objSize n := by
  cases n with
  | zero => rfl
  | succ n =>
      rw [flLink_succ]
      rfl

/-- Linking changes nothing outside the eight bytes from the start of each slot. -/
theorem flLinkMemory_outside (mem : ByteMemory) {x : Addr}
    (hx : ∀ i < n, ¬ InRange (slotAddr memory objSize i) 8 x) :
    ((List.range n).foldl (flLinkStep memory objSize) (mem, null)).1 x = mem x := by
  induction n with
  | zero => rfl
  | succ n ih =>
      have hlast : ¬ InRange (slotAddr memory objSize n) 8 x := hx n (Nat.lt_succ_self n)
      rw [flLink_succ]
      apply (ByteMemory.storeWord_outside _ _ hlast).trans
      exact ih fun i hi => hx i (Nat.lt_succ_of_lt hi)

/-- The byte that linking leaves in the eight bytes from the last slot on. -/
theorem flLinkMemory_last (mem : ByteMemory) {x : Addr} (hx : InRange (slotAddr memory objSize n) 8 x) :
    ((List.range (n + 1)).foldl (flLinkStep memory objSize) (mem, null)).1 x =
      (ByteMemory.wordBytes (linkHead memory objSize n)).getD (x - slotAddr memory objSize n).toNat 0 := by
  rw [flLink_succ, ← flLink_head mem]
  exact ByteMemory.write_inside _ (by rwa [ByteMemory.length_wordBytes])

variable {c : MlgComponent}

/-- The byte after a component whose slots are smaller than a link is one of the last link. -/
theorem flLinkMemory_escapes (hvalid : jfsMlgValidComponent c = true) (hfit : c.Fits)
    (hsmall : c.desc.size.toNat < 8) :
    ∃ (x : Addr) (byte : UInt8), ¬ InRange c.ptr (c.desc.size.toNat * c.desc.count.toNat) x ∧
      ∀ mem : ByteMemory, (flLinkMemory mem c.ptr c.desc.size c.desc.count).1 x = byte := by
  obtain ⟨hdesc, hptr⟩ := (jfsMlgValidComponent_iff c).1 hvalid
  have hpos : 0 < c.ptr.toNat := Nat.pos_of_ne_zero fun hzero => hptr (UInt64.toNat_inj.1 hzero)
  have hsize := hdesc.size
  obtain ⟨n, hn⟩ := Nat.exists_eq_succ_of_ne_zero (Nat.ne_of_gt hdesc.count)
  have hbytes : c.desc.size.toNat * c.desc.count.toNat = c.desc.size.toNat * n + c.desc.size.toNat := by
    rw [hn, Nat.mul_succ]
  have hend : c.ptr.toNat + c.desc.size.toNat * c.desc.count.toNat ≤ 2 ^ 64 := hfit
  have hlast : slotAddr c.ptr c.desc.size n = c.ptr + UInt64.ofNat (c.desc.size.toNat * n) := by
    rw [slotAddr, UInt64.ofNat_mul, UInt64.ofNat_toNat, UInt64.mul_comm]
  have hoffset : c.ptr + UInt64.ofNat (c.desc.size.toNat * c.desc.count.toNat) -
      slotAddr c.ptr c.desc.size n = c.desc.size := by
    rw [hlast, hbytes, UInt64.ofNat_add, UInt64.ofNat_toNat, ← UInt64.add_assoc]
    exact (UInt64.add_comm _ _).symm ▸ UInt64.add_sub_cancel _ _
  refine ⟨c.ptr + UInt64.ofNat (c.desc.size.toNat * c.desc.count.toNat),
    (ByteMemory.wordBytes (linkHead c.ptr c.desc.size n)).getD c.desc.size.toNat 0, ?_, ?_⟩
  · unfold InRange
    rw [ByteMemory.toNat_add_ofNat_sub c.ptr (by omega)]
    exact Nat.lt_irrefl _
  · intro mem
    have hin : InRange (slotAddr c.ptr c.desc.size n) 8
        (c.ptr + UInt64.ofNat (c.desc.size.toNat * c.desc.count.toNat)) := by
      unfold InRange
      rw [hoffset]
      exact hsmall
    unfold flLinkMemory
    rw [hn, flLinkMemory_last mem (hn ▸ hin), ← hn, hoffset]

/-- A component with slots that are too small for a link is written past its end. -/
theorem not_linksSlots_of_small (hvalid : jfsMlgValidComponent c = true) (hfit : c.Fits)
    (hsmall : c.desc.size.toNat < 8) : ¬ LinksSlots c := by
  intro hlinks
  obtain ⟨x, byte, houtside, hbyte⟩ := flLinkMemory_escapes hvalid hfit hsmall
  obtain ⟨mem', fl, visited, hinit, hsame, -⟩ := hlinks fun _ => byte + 1
  have hmem : mem' = (flLinkMemory (fun _ => byte + 1) c.ptr c.desc.size c.desc.count).1 := by
    have hspec := hinit.symm.trans (jfsFlInit_spec hvalid _)
    exact congrArg Prod.fst hspec
  have hkept : byte = byte + 1 := by
    have hx := hsame x houtside
    rw [hmem, hbyte] at hx
    exact hx
  exact absurd (UInt8.add_right_inj byte |>.1 ((UInt8.add_zero byte).trans hkept)) (by decide)

/-- The bytes of a slot with room for a link are bytes of the component. -/
theorem inRange_component (hvalid : jfsMlgValidComponent c = true) (hfit : c.Fits)
    (hroom : 8 ≤ c.desc.size.toNat) {i : Nat} (hi : i < c.desc.count.toNat) {x : Addr}
    (hx : InRange (slotAddr c.ptr c.desc.size i) 8 x) :
    InRange c.ptr (c.desc.size.toNat * c.desc.count.toNat) x := by
  obtain ⟨hdesc, -⟩ := (jfsMlgValidComponent_iff c).1 hvalid
  have hnext : c.desc.size.toNat * (i + 1) ≤ c.desc.size.toNat * c.desc.count.toNat := Nat.mul_le_mul_left _ hi
  rw [Nat.mul_add, Nat.mul_one] at hnext
  rw [inRange_slotAddr hdesc.size hfit hi hroom] at hx
  rw [ByteMemory.inRange_iff hfit]
  omega

/-- A component whose slots hold a link is linked as it should be. -/
theorem linksSlots_of_room (hvalid : jfsMlgValidComponent c = true) (hfit : c.Fits)
    (hroom : 8 ≤ c.desc.size.toNat) : LinksSlots c := by
  intro mem
  obtain ⟨hdesc, hptr⟩ := (jfsMlgValidComponent_iff c).1 hvalid
  have laws := byteLinkLaws hdesc hptr hroom hfit
  obtain ⟨free, hchain, -, hperm⟩ := FlInv.link laws mem
  rw [List.append_nil] at hperm
  refine ⟨_, _, free, jfsFlInit_spec hvalid mem, ?_, hchain, hperm.nodup_iff.2 laws.nodup, hperm⟩
  intro x hx
  apply flLinkMemory_outside mem
  intro i hi hin
  exact hx (inRange_component hvalid hfit hroom hi hin)

/-- Over every component that `jfs_fl_init` accepts, the slots are linked as they should be exactly when they
    have room for a link. -/
theorem linksSlots_iff (hvalid : jfsMlgValidComponent c = true) (hfit : c.Fits) :
    LinksSlots c ↔ 8 ≤ c.desc.size.toNat := by
  constructor
  · intro hlinks
    apply Nat.le_of_not_lt
    intro hsmall
    exact not_linksSlots_of_small hvalid hfit hsmall hlinks
  · exact linksSlots_of_room hvalid hfit

/-- Two slots of 16 bytes are linked. -/
theorem linksSlots_two_slots : LinksSlots ⟨4096, ⟨16, 8, 2⟩⟩ :=
  (linksSlots_iff (by decide) (by decide)).2 (by decide)

/-- Three slots of 4 bytes are accepted, and from zeroed memory the walk leaves the component at the second
    slot: its link was overwritten by that of the third one. -/
theorem linksSlots_small_slots :
    jfsMlgValidComponent ⟨4096, ⟨4, 4, 3⟩⟩ = true ∧ MlgComponent.Fits ⟨4096, ⟨4, 4, 3⟩⟩ ∧
      ¬ LinksSlots ⟨4096, ⟨4, 4, 3⟩⟩ ∧
      (flLinkMemory (fun _ => 0 : ByteMemory) 4096 4 3).2 = 4104 ∧
      LinkMemory.next (flLinkMemory (fun _ => 0 : ByteMemory) 4096 4 3).1 4104 = 4100 ∧
      LinkMemory.next (flLinkMemory (fun _ => 0 : ByteMemory) 4096 4 3).1 4100 = 0x100400001000 :=
  ⟨by decide, by decide, not_linksSlots_of_small (by decide) (by decide) (by decide), rfl,
    by decide, by decide⟩

end Jcl
