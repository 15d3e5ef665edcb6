/-
Module: Jcl.Proofs.Bst.Init
Layer: Proofs
Purpose: What `jfs_bst_init` leaves: an empty tree around its sentinel, all slots of the component on the
  free list, and the offset of the values. Everything else in the slots keeps the contents the component
  came with.
Imports: Jcl.Proofs.FreeList, Jcl.Proofs.Bst.Find
Trusted boundary: none (fully proved)
Main exports: Initialized, jfsBstInit_spec, Initialized.holds, nodeLinkLaws, sampleConf
-/
import Jcl.Proofs.FreeList
import Jcl.Proofs.Bst.Find

namespace Jcl

open RedBlack RedBlack.RBTree TaggedWord WordAlign

section

variable {K V : Type} {t t' : Bst K V} {nilStorage : Addr} {conf : BstConf K V} {cmp : K → V → Int}

/-- The tree record after `jfs_bst_init`, and what the memory of the nodes still has in common with the
    memory `t` came with. -/
structure Initialized (t : Bst K V) (nilStorage : Addr) (conf : BstConf K V) (cmp : K → V → Int)
    (t' : Bst K V) : Prop where
  nilOk : NilOk t'
  nil : t'.nil = nilStorage
  root : t'.root = nilStorage
  cache : t'.cache = { smallest := nilStorage, largest := nilStorage, previous := nilStorage }
  cmp : t'.cmp = some cmp
  valueOffset : t'.valueOffset.toNat = roundUp 32 conf.component.desc.align.toNat
  valueSize : t'.valueSize = conf.component.desc.size - t'.valueOffset
  freeList : t'.freeList = { list := (flLinkMemory t.mem conf.component.ptr conf.component.desc.size
    conf.component.desc.count).2, count := conf.component.desc.count }
  links : ∀ p, p ≠ nilStorage → t'.mem.parentColor p = (flLinkMemory t.mem conf.component.ptr
    conf.component.desc.size conf.component.desc.count).1.parentColor p
  list : t'.mem.list = t.mem.list
  value : t'.mem.value = t.mem.value

theorem flLinkMemory_fields (mem : NodeMemory V) (memory objSize objCount : UInt64) :
    (flLinkMemory mem memory objSize objCount).1.list = mem.list ∧
      (flLinkMemory mem memory objSize objCount).1.value = mem.value := by
  unfold flLinkMemory
  generalize null = head
  induction List.range objCount.toNat generalizing mem head with
  | nil => exact ⟨rfl, rfl⟩
  | cons i l ih =>
      rw [List.foldl_cons]
      exact ih _ _

/-- The place of the value in a slot. -/
theorem roundUp_header_lt {align : UInt64} (ha : align.toNat.isPowerOfTwo) :
    roundUp 32 align.toNat < 2 ^ 64 := by
  have hpos := Nat.pos_of_isPowerOfTwo ha
  by_cases hle : 32 ≤ align.toNat
  · exact Nat.lt_of_le_of_lt (roundUp_least (Nat.dvd_refl _) hle) align.toNat_lt
  · have := roundUp_lt 32 hpos
    omega

theorem Initialized.offset_pos (h : Initialized t nilStorage conf cmp t')
    (ha : conf.component.desc.align.toNat.isPowerOfTwo) : 0 < t'.valueOffset := by
  have hle := le_roundUp 32 (Nat.pos_of_isPowerOfTwo ha)
  rw [gt_iff_lt.symm, gt_iff_lt, UInt64.lt_iff_toNat_lt, h.valueOffset]
  exact Nat.lt_of_lt_of_le (by decide) hle

theorem Initialized.holds (h : Initialized t nilStorage conf cmp t') : Holds t' leaf := by
  refine ⟨h.nilOk, ?_, trivial, List.nodup_nil⟩
  rw [h.root, ptr_leaf, h.nil]

/-- The link words of distinct nodes are distinct cells of the node memory. -/
theorem nodeLinkLaws {slots : List Addr} (hnodup : slots.Nodup) (hnull : null ∉ slots)
    (hlen : slots.length < 2 ^ 64) : LinkLaws (NodeMemory V) slots where
  next_self m v p _ := by simp [LinkMemory.next, LinkMemory.setNext]
  next_other m v p _ q _ hne := by simp [LinkMemory.next, LinkMemory.setNext, hne]
  nodup := hnodup
  null_not_mem := hnull
  length_lt := hlen

variable [Build]

theorem jfsBstInit_spec (hvalid : jfsMlgValidComponent conf.component = true) (hcmp : conf.cmp = some cmp)
    (hnull : nilStorage ≠ null) (haligned : Aligned nilStorage) :
    Returns (jfsBstInit nilStorage conf .ok) t fun err t' =>
      err = .ok ∧ Initialized t nilStorage conf cmp t' := by
  have hdesc := ((jfsMlgValidComponent_iff conf.component).1 hvalid).1
  obtain ⟨offset, hrun, hoffset⟩ := jfsMlgAlignSize_spec hdesc.align (show 0 < (32 : UInt64) by decide)
    (roundUp_header_lt hdesc.align)
  have hinit : jfsFlInit t.mem conf.component .ok = ((flLinkMemory t.mem conf.component.ptr
      conf.component.desc.size conf.component.desc.count).1, some
      { list := (flLinkMemory t.mem conf.component.ptr conf.component.desc.size
          conf.component.desc.count).2, count := conf.component.desc.count }, .ok) := by
    simp [jfsFlInit, hvalid]
  have hlist := flLinkMemory_fields t.mem conf.component.ptr conf.component.desc.size
    conf.component.desc.count
  simp only [jfsBstInit, returns_bind, returns_get, hinit, returns_modify, returns_ite,
    returns_writeLeft, returns_writeRight, returns_bstSetParentColor, returns_lift, hcmp, returns_pure]
  refine ⟨fun hne => absurd rfl hne, fun _ => ⟨hnull, hnull, hnull, fun _ => hnull, by simp, offset, hrun,
    fun hnone => by simp at hnone, fun _ => ⟨trivial, ⟨hnull, haligned, ?_, ?_⟩, rfl, rfl, rfl, rfl, hoffset, rfl,
      rfl, ?_, hlist.1, hlist.2⟩⟩⟩
  · have htag : (nilStorage ||| bstBlack) &&& 1 = bstBlack := tag_or haligned (isTag_word .black)
    simpa [Bst.color, Bst.setParentColor] using htag
  · intro d
    cases d <;> simp [Bst.child, Bst.setParentColor, Bst.setChild]
  · intro p hp
    simp [Bst.setParentColor, Bst.setChild, hp]

end

/-! ### Trees of integers for fixed runs -/

/-- The three-way comparison of integers. -/
def sampleCmp (key value : Int) : Int := if key < value then -1 else if key = value then 0 else 1

/-- Slots of 40 bytes at 4096, for values of 8 bytes. -/
def sampleConf (count : UInt64) : BstConf Int Int where
  component := ⟨4096, ⟨40, 8, count⟩⟩
  cmp := some sampleCmp

/-- A tree record on zeroed memory, before `jfs_bst_init`. -/
def sampleRecord : Bst Int Int where
  mem := ⟨fun _ => 0, fun _ => 0, fun _ => 0, fun _ => 0, fun _ => 0⟩
  root := null
  nil := null
  cache := ⟨null, null, null⟩
  cmp := none
  valueOffset := 0
  valueSize := 0
  freeList := ⟨null, 0⟩

end Jcl
