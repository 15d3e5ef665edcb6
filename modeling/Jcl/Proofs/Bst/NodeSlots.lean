/-
Module: Jcl.Proofs.Bst.NodeSlots
Layer: Proofs
Purpose: What the descriptor of `jfs_bst_make_desc` means for the slots of a tree. The place of the values
  can be read off the descriptor again, though it was computed from another alignment; the room at the end of a
  slot that the next one needs to be aligned is not in it unless the objects happen to fill it.
Imports: Jcl.Proofs.Bst.Capacity
Trusted boundary: human-reviewed spec (ReversesOffset, KeepsTagFree)
Main exports: jfsBstInit_offset, ReversesOffset, valueOffset_reversed, WordWrite, writes_spec, KeepsTagFree,
  padded_iff, keepsTagFree_iff
-/
import Jcl.Proofs.Bst.Capacity

namespace Jcl

open RedBlack TaggedWord WordAlign
open ByteMemory (slotAddr)

section

variable {K V : Type} {t : Bst K V} {conf : BstConf K V} {nilStorage p : Addr}
  {objSize objAlign objCount offset : UInt64} {desc : MlgDesc} {err : JclErr}

/-! ### The place of the values -/

/-- The offset that an append behind a node header returns is the one of the descriptor. -/
theorem Appended.header {objDesc : MlgDesc} (happended : Appended bstNodeDesc objDesc desc offset)
    (hobj : objDesc.Valid) : offset.toNat = roundUp 32 desc.align.toNat := by
  rw [happended.offset]
  exact (roundUp_header happended.align happended.align_desc hobj.align_pos).symm

variable [Build]

/-- `jfs_bst_init` computes the place of the values before it looks at the comparator. -/
theorem jfsBstInit_offset (hvalid : jfsMlgValidComponent conf.component = true) (hnull : nilStorage ≠ null) :
    Returns (jfsBstInit nilStorage conf .ok) t fun _ t' =>
      t'.valueOffset.toNat = roundUp 32 conf.component.desc.align.toNat ∧
        t'.valueSize = conf.component.desc.size - t'.valueOffset := by
  have hdesc := ((jfsMlgValidComponent_iff conf.component).1 hvalid).1
  obtain ⟨offset, hrun, hoffset⟩ := jfsMlgAlignSize_spec hdesc.align (show 0 < (32 : UInt64).toNat by decide)
    (roundUp_header_lt hdesc.align)
  have hinit : jfsFlInit t.mem conf.component .ok = ((flLinkMemory t.mem conf.component.ptr
      conf.component.desc.size conf.component.desc.count).1, some
      { list := (flLinkMemory t.mem conf.component.ptr conf.component.desc.size
          conf.component.desc.count).2, count := conf.component.desc.count }, .ok) := by
    simp [jfsFlInit, hvalid]
  simp only [jfsBstInit, returns_bind, returns_get, hinit, returns_modify, returns_ite,
    returns_writeLeft, returns_writeRight, returns_bstSetParentColor, returns_lift, returns_pure]
  refine ⟨fun hne => absurd rfl hne, fun _ => ⟨hnull, hnull, hnull, fun _ => hnull, by simp, offset, hrun,
    fun _ => ⟨hoffset, trivial⟩, fun _ => ⟨hoffset, trivial⟩⟩⟩

/-- The tree stores its values where the descriptor has room for them: at the offset of the append, over all
    the bytes behind it, in reach of the alignment of the objects, and the node of a value can be found again. -/
structure ReversesOffset (objSize objAlign objCount : UInt64) (desc : MlgDesc) (offset : UInt64)
    (t : Bst K V) : Prop where
  valueOffset : t.valueOffset = offset
  valueSize : t.valueSize.toNat = objSize.toNat * objCount.toNat
  fits : t.valueOffset.toNat + t.valueSize.toNat = desc.size.toNat
  values : ∀ node : Addr, desc.align.toNat ∣ node.toNat → Returns (bstContainerValue node) t fun value t' =>
    t' = t ∧ value = node + offset ∧ objAlign.toNat ∣ value.toNat ∧
      Returns (bstContainerNode value) t fun node' t' => node' = node ∧ t' = t

/-- The offset of the values that `jfs_bst_make_desc` drops comes back in `jfs_bst_init`. -/
theorem valueOffset_reversed (err : JclErr) (hsize : 0 < objSize.toNat) (hcount : 0 < objCount.toNat)
    (halign : objAlign.toNat.isPowerOfTwo)
    (hfit : roundUp 32 objAlign.toNat + objSize.toNat * objCount.toNat < 2 ^ 64) :
    ∃ desc offset, jfsMlgAppend bstNodeDesc ⟨objSize, objAlign, objCount⟩ = .ok (desc, offset) ∧
      jfsBstMakeDesc objSize objAlign objCount err = .ok (desc, err) ∧
      ∀ (conf : BstConf K V) (nilStorage : Addr) (t : Bst K V), conf.component.desc = desc →
        conf.component.ptr ≠ null → nilStorage ≠ null →
        Returns (jfsBstInit nilStorage conf .ok) t fun _ t' =>
          ReversesOffset objSize objAlign objCount desc offset t' := by
  have hobj : MlgDesc.Valid ⟨objSize, objAlign, objCount⟩ := ⟨halign, hsize, hcount⟩
  obtain ⟨desc, offset, happend, happended⟩ := jfsMlgAppend_spec bstNodeDesc_valid hobj hfit
  refine ⟨desc, offset, happend, jfsBstMakeDesc_append err hobj happend, ?_⟩
  rintro conf nilStorage t rfl hptr hnull
  have hvalid : jfsMlgValidComponent conf.component = true :=
    (jfsMlgValidComponent_iff _).2 ⟨happended.valid, hptr⟩
  refine (jfsBstInit_offset hvalid hnull).mono ?_
  rintro _ t' ⟨hoffset, hvalue⟩
  have hsame : t'.valueOffset = offset := by
    rw [← UInt64.toNat_inj, hoffset, happended.header hobj]
  have hdescSize : conf.component.desc.size.toNat = offset.toNat + objSize.toNat * objCount.toNat := by
    rw [happended.size, happended.offset]
  have hvalueSize : t'.valueSize.toNat = objSize.toNat * objCount.toNat := by
    have hle : offset ≤ conf.component.desc.size := by
      rw [UInt64.le_iff_toNat_le, hdescSize]
      exact Nat.le_add_right _ _
    rw [hvalue, hsame, UInt64.toNat_sub_of_le _ _ hle, hdescSize, Nat.add_sub_cancel_left]
  have hpos : 0 < t'.valueOffset := by
    rw [UInt64.lt_iff_toNat_lt, hoffset]
    exact Nat.lt_of_lt_of_le (by decide) (le_roundUp 32 happended.valid.align_pos)
  refine ⟨hsame, hvalueSize, by rw [hsame, hvalueSize, hdescSize], ?_⟩
  intro node hnode
  rw [returns_bstContainerValue hpos]
  refine ⟨rfl, by rw [hsame], ?_, returns_bstContainerNode.2 ⟨rfl, rfl⟩⟩
  -- The objects' alignment divides that of the node and, as it was rounded up to it, the offset.
  have hoffsetDvd : objAlign.toNat ∣ t'.valueOffset.toNat := by
    rw [hsame, happended.offset]
    exact dvd_roundUp _ _
  exact dvd_toNat_add (isPowerOfTwo_dvd_word halign) (happended.align_desc.trans hnode) hoffsetDvd

end

/-- Objects of 16 bytes with an alignment of 64, three of them. -/
theorem valueOffset_reversed_sixty_four : letI : Build := ⟨true⟩
    ∃ t, jfsMlgAppend bstNodeDesc ⟨16, 64, 3⟩ = .ok (⟨112, 64, 1⟩, 64) ∧
      jfsBstMakeDesc 16 64 3 .ok = .ok (⟨112, 64, 1⟩, .ok) ∧
      (jfsBstInit 8 ⟨⟨4096, ⟨112, 64, 1⟩⟩, some sampleCmp⟩ .ok).run sampleRecord = .ok (.ok, t) ∧
      ReversesOffset 16 64 3 ⟨112, 64, 1⟩ 64 t := by
  let : Build := ⟨true⟩
  obtain ⟨desc, offset, happend, hmake, hinit⟩ :=
    @valueOffset_reversed Int Int 16 64 3 _ .ok (by decide) (by decide) ⟨6, rfl⟩ (by decide)
  have happend' : jfsMlgAppend bstNodeDesc ⟨16, 64, 3⟩ = .ok (⟨112, 64, 1⟩, 64) := by decide
  rw [happend'] at happend
  cases happend
  obtain ⟨err, t, hrun, ht⟩ :=
    hinit ⟨⟨4096, ⟨112, 64, 1⟩⟩, some sampleCmp⟩ 8 sampleRecord rfl (by decide) (by decide)
  have hresult : resultOf (jfsBstInit 8 ⟨⟨4096, ⟨112, 64, 1⟩⟩, some sampleCmp⟩ .ok) sampleRecord = .ok .ok := by
    decide +kernel
  have herr : err = .ok := by
    rw [resultOf, hrun] at hresult
    cases hresult
    rfl
  subst herr
  exact ⟨t, happend', hmake, hrun, ht⟩

section

variable {K V : Type} {t : Bst K V} {p : Addr} {objSize objAlign objCount : UInt64} {desc : MlgDesc}

/-! ### The parent word of a node -/

/-- What can be written to the parent word of a node. -/
inductive WordWrite where
  | parent (q : Addr)
  | color (c : Color)
  | parentColor (q : Addr) (c : Color)

/-- The write on the node `p`. -/
def WordWrite.run [Build] (p : Addr) : WordWrite → BstM K V Unit
  | .parent q => bstSetParent p q
  | .color c => bstSetColor p (Color.word c)
  | .parentColor q c => bstSetParentColor p q (Color.word c)

/-- The parent and the colour that were set last, from those before. -/
def WordWrite.after (last : Addr × UInt64) : WordWrite → Addr × UInt64
  | .parent q => (q, last.2)
  | .color c => (last.1, Color.word c)
  | .parentColor q c => (q, Color.word c)

/-- A parent that is written is one of these addresses, and not `NULL`. -/
def WordWrite.Among (slots : List Addr) : WordWrite → Prop
  | .parent q => q ∈ slots ∧ q ≠ null
  | .color _ => True
  | .parentColor q _ => q ∈ slots ∧ q ≠ null

/-- The writes one after the other. -/
def writeAll [Build] (p : Addr) : List WordWrite → BstM K V Unit
  | [] => pure ()
  | write :: writes => do
      write.run p
      writeAll p writes

/-- What `bst_parent` and `bst_color` read. -/
def readWord [Build] (p : Addr) : BstM K V (Addr × UInt64) := do
  return (← bstParent p, ← bstColor p)

/-- With the low bit of the parent free, a write changes what it sets and nothing else of the word. -/
theorem WordWrite.run_spec [Build] {write : WordWrite} {slots : List Addr} (hwrite : write.Among slots)
    (hslots : ∀ q ∈ slots, Aligned q) (hp : p ≠ null) :
    Returns (write.run p) t fun _ t' => (t'.parent p, t'.color p) = write.after (t.parent p, t.color p) := by
  have hword : ∀ c, Build.asserts = true → Color.word c = bstRed ∨ Color.word c = bstBlack := by
    intro c _
    cases c with
    | red => exact Or.inl rfl
    | black => exact Or.inr rfl
  cases write with
  | parent q =>
      refine returns_bstSetParent.2 ⟨hp, fun _ => hwrite.2, ?_⟩
      rw [Bst.setParent_parent (hslots q hwrite.1), if_pos rfl, Bst.setParent_color (hslots q hwrite.1)]
      rfl
  | color c =>
      refine returns_bstSetColor.2 ⟨hp, hword c, ?_⟩
      rw [Bst.setColor_parent (isTag_word c), Bst.setColor_color (isTag_word c), if_pos rfl]
      rfl
  | parentColor q c =>
      refine returns_bstSetParentColor.2 ⟨hp, fun _ => hwrite.2, hword c, ?_⟩
      rw [Bst.setParentColor_parent, Bst.setParentColor_color, if_pos rfl, if_pos rfl,
        address_or (hslots q hwrite.1) (isTag_word c), tag_or (hslots q hwrite.1) (isTag_word c)]
      rfl

/-- After any number of writes the parent and the colour are those that were set last. -/
theorem writes_spec [Build] {writes : List WordWrite} {slots : List Addr}
    (hwrites : ∀ write ∈ writes, write.Among slots) (hslots : ∀ q ∈ slots, Aligned q) (hp : p ≠ null) :
    Returns (do writeAll p writes; readWord p) t fun last _ =>
      last = writes.foldl WordWrite.after (t.parent p, t.color p) := by
  induction writes generalizing t with
  | nil =>
      simp only [writeAll, returns_bind, returns_pure, readWord, returns_bstParent, returns_bstColor]
      exact ⟨hp, hp, rfl⟩
  | cons write writes ih =>
      rw [writeAll, bind_assoc]
      refine Returns.bind_of (WordWrite.run_spec (hwrites write (by simp)) hslots hp) ?_
      intro _ t' ht'
      rw [List.foldl_cons, ← ht']
      exact ih fun write' hwrite' => hwrites write' (List.mem_cons_of_mem write hwrite')

/-! ### Slots beside each other -/

/-- The descriptor is padded: its size is a multiple of its alignment. So slots beside each other are all aligned
    to a node, and whatever is written to the parent word of one of them can be read back. -/
structure KeepsTagFree [Build] (desc : MlgDesc) : Prop where
  padded : desc.align.toNat ∣ desc.size.toNat
  aligned : ∀ (ptr : Addr) (n : Nat), desc.align.toNat ∣ ptr.toNat → ∀ p ∈ slots ptr desc.size n, 8 ∣ p.toNat
  words : ∀ (K V : Type) (t : Bst K V) (ptr : Addr) (n : Nat), desc.align.toNat ∣ ptr.toNat →
    ∀ p ∈ slots ptr desc.size n, p ≠ null → ∀ writes : List WordWrite,
      (∀ write ∈ writes, write.Among (slots ptr desc.size n)) →
      Returns (do writeAll p writes; readWord p) t fun last _ =>
        last = writes.foldl WordWrite.after (t.parent p, t.color p)

/-- A stride that the alignment divides keeps it in every slot, also where the addresses wrap. -/
theorem dvd_slot {d n : Nat} {ptr size : UInt64} (hd : d ∣ 2 ^ 64) (hptr : d ∣ ptr.toNat) (hsize : d ∣ size.toNat) :
    ∀ q ∈ slots ptr size n, d ∣ q.toNat := by
  intro q hq
  obtain ⟨i, -, rfl⟩ := List.mem_map.1 hq
  exact dvd_toNat_add hd hptr (dvd_toNat_mul hd _ hsize)

theorem keepsTagFree_of_padded [Build] (halign : 8 ∣ desc.align.toNat)
    (hpow : desc.align.toNat.isPowerOfTwo) (hpadded : desc.align.toNat ∣ desc.size.toNat) : KeepsTagFree desc := by
  have haligned : ∀ (ptr : Addr) (n : Nat), desc.align.toNat ∣ ptr.toNat →
      ∀ p ∈ slots ptr desc.size n, 8 ∣ p.toNat := by
    intro ptr n hptr p hp
    exact halign.trans (dvd_slot (isPowerOfTwo_dvd_word hpow) hptr hpadded p hp)
  refine ⟨hpadded, haligned, ?_⟩
  intro K V t ptr n hptr p hp hnull writes hwrites
  exact writes_spec hwrites (fun q hq => aligned_of_dvd (haligned ptr n hptr q hq)) hnull

/-- The descriptor of an accepted request, where its size may wrap. -/
theorem jfsBstMakeDesc_accepted [Build] (h : jfsBstMakeDesc objSize objAlign objCount .ok = .ok (desc, .ok)) :
    MlgDesc.Valid ⟨objSize, objAlign, objCount⟩ ∧ desc = bstNodeDesc.grown 32 ⟨objSize, objAlign, objCount⟩ := by
  by_cases hvalid : jfsMlgValidDesc ⟨objSize, objAlign, objCount⟩ = true
  · have hobj := (jfsMlgValidDesc_iff _).1 hvalid
    have hrunning : Running 32 bstNodeDesc := ⟨bstNodeDesc_valid.align, bstNodeDesc_valid.count, rfl⟩
    rw [jfsBstMakeDesc_append .ok hobj (jfsMlgAppend_wraps hrunning hobj fun _ => by decide)] at h
    cases h
    exact ⟨hobj, rfl⟩
  · have hnode : jfsMlgValidDesc ⟨32, 8, 1⟩ = true := (jfsMlgValidDesc_iff _).2 bstNodeDesc_valid
    simp [jfsBstMakeDesc, hnode, hvalid, bind, Except.bind, pure, Except.pure] at h

/-- The alignment of the slot is the larger one. -/
theorem grown_align (hdesc : desc = bstNodeDesc.grown 32 ⟨objSize, objAlign, objCount⟩) :
    desc.align = largerAlign 8 objAlign := by
  rw [hdesc]
  rfl

/-- The last object ends at a multiple of the alignment of the slot where the objects have at least the alignment of
    a node, or fill the slot up to it. -/
theorem padded_iff (hobj : MlgDesc.Valid ⟨objSize, objAlign, objCount⟩) (hmultiple : objAlign.toNat ∣ objSize.toNat)
    (hdesc : desc = bstNodeDesc.grown 32 ⟨objSize, objAlign, objCount⟩) :
    desc.align.toNat ∣ desc.size.toNat ↔ 8 ≤ objAlign.toNat ∨ 8 ∣ objSize.toNat * objCount.toNat := by
  have hsize : desc.size = UInt64.ofNat (roundUp 32 objAlign.toNat + objSize.toNat * objCount.toNat) := by
    rw [hdesc]
    rfl
  have halign : desc.align = largerAlign 8 objAlign := grown_align hdesc
  have hpow : objAlign.toNat.isPowerOfTwo := hobj.align
  by_cases hle : 8 ≤ objAlign.toNat
  · have hlarger : largerAlign 8 objAlign = objAlign := by
      unfold largerAlign
      split
      · rfl
      · case isFalse hnot =>
          rw [gt_iff_lt, UInt64.lt_iff_toNat_lt] at hnot
          exact UInt64.toNat_inj.1 (Nat.le_antisymm hle (Nat.le_of_not_lt hnot))
    have hdvd : objAlign.toNat ∣ roundUp 32 objAlign.toNat + objSize.toNat * objCount.toNat :=
      Nat.dvd_add (dvd_roundUp _ _) (Dvd.dvd.mul_right hmultiple _)
    rw [halign, hlarger, hsize, dvd_toNat_ofNat (isPowerOfTwo_dvd_word hpow)]
    exact ⟨fun _ => Or.inl hle, fun _ => hdvd⟩
  · have hlarger : largerAlign 8 objAlign = 8 := by
      refine if_neg fun hlt => hle ?_
      rw [gt_iff_lt, UInt64.lt_iff_toNat_lt] at hlt
      exact Nat.le_of_lt hlt
    have height : objAlign.toNat ∣ 8 := isPowerOfTwo_dvd_of_le hpow ⟨3, rfl⟩ (Nat.le_of_not_le hle)
    have hheader : roundUp 32 objAlign.toNat = 32 := roundUp_eq_self hobj.align_pos (height.trans (by decide))
    have hword : 8 ∣ 2 ^ 64 := by decide
    rw [halign, hlarger, hsize, hheader]
    change 8 ∣ (UInt64.ofNat (32 + objSize.toNat * objCount.toNat)).toNat ↔ _
    rw [dvd_toNat_ofNat hword, Nat.dvd_add_right (by decide : 8 ∣ 32)]
    exact ⟨Or.inr, fun h => h.resolve_left hle⟩

/-- For every accepted request whose object size is a multiple of the object alignment, the slots keep the low bit
    of their addresses free and lie at aligned addresses exactly where the objects fill up the last node. -/
theorem keepsTagFree_iff [Build] (hmultiple : objAlign.toNat ∣ objSize.toNat)
    (haccepted : jfsBstMakeDesc objSize objAlign objCount .ok = .ok (desc, .ok)) :
    KeepsTagFree desc ↔ 8 ≤ objAlign.toNat ∨ 8 ∣ objSize.toNat * objCount.toNat := by
  obtain ⟨hobj, hdesc⟩ := jfsBstMakeDesc_accepted haccepted
  rw [← padded_iff hobj hmultiple hdesc]
  constructor
  · exact fun h => h.padded
  · intro hpadded
    have halign : desc.align = largerAlign 8 objAlign := grown_align hdesc
    apply keepsTagFree_of_padded _ _ hpadded
    · rw [halign]
      exact dvd_largerAlign_left bstNodeDesc_valid.align hobj.align
    · rw [halign]
      exact largerAlign_isPowerOfTwo bstNodeDesc_valid.align hobj.align

end

/-- Two objects of 4 bytes with an alignment of 4 fill a slot of 40 bytes. -/
theorem keepsTagFree_two_words : letI : Build := ⟨true⟩
    jfsBstMakeDesc 4 4 2 .ok = .ok (⟨40, 8, 1⟩, .ok) ∧ KeepsTagFree ⟨40, 8, 1⟩ := by
  let : Build := ⟨true⟩
  have hmake : jfsBstMakeDesc 4 4 2 .ok = .ok (⟨40, 8, 1⟩, .ok) := by decide
  exact ⟨hmake, (keepsTagFree_iff (by decide) hmake).2 (Or.inr (by decide))⟩

/-- One object of one byte makes slots of 33 bytes: the second of two slots from 4096 on is at 4129, and as a red
    parent of the first one it is read back as a black one at 4128. -/
theorem keepsTagFree_one_byte : letI : Build := ⟨true⟩
    jfsBstMakeDesc 1 1 1 .ok = .ok (⟨33, 8, 1⟩, .ok) ∧ slots 4096 33 2 = [4096, 4129] ∧
      resultOf (do writeAll 4096 [.parentColor 4129 .red]; readWord 4096) sampleRecord = .ok (4128, bstBlack) ∧
      ¬ KeepsTagFree ⟨33, 8, 1⟩ := by
  let : Build := ⟨true⟩
  have hread : resultOf (do writeAll 4096 [.parentColor 4129 .red]; readWord 4096) sampleRecord =
      .ok (4128, bstBlack) := by decide +kernel
  exact ⟨by decide, by decide, hread, fun h => absurd h.padded (by decide)⟩

end Jcl
