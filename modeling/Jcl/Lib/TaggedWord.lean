/-
Module: Jcl.Lib.TaggedWord
Layer: Library
Purpose: Words that hold an even address and a one-bit tag in its free low bit, the way C packs a flag
  into an aligned pointer: `q | tag` packs, `w & ~1` reads the address and `w & 1` the tag.
Trusted boundary: none (fully proved)
Main exports: Aligned, address_or, tag_or, address_keep_tag, tag_keep_tag, address_keep_address,
  tag_keep_address
-/

namespace TaggedWord

/-- The low bit of an address is free. -/
def Aligned (a : UInt64) : Prop := a &&& 1 = 0

instance (a : UInt64) : Decidable (Aligned a) := inferInstanceAs (Decidable (_ = _))

/-- A tag is one bit. -/
def IsTag (c : UInt64) : Prop := c &&& ~~~1 = 0

theorem isTag_and_one (w : UInt64) : IsTag (w &&& 1) := by
  unfold IsTag
  rw [UInt64.and_assoc]
  simp

theorem or_and_distrib (a b m : UInt64) : (a ||| b) &&& m = (a &&& m) ||| (b &&& m) := by
  apply UInt64.toBitVec_inj.1
  simp only [UInt64.toBitVec_and, UInt64.toBitVec_or]
  ext i
  simp only [BitVec.getElem_and, BitVec.getElem_or, Bool.and_or_distrib_right]

theorem split (w : UInt64) : (w &&& ~~~1) ||| (w &&& 1) = w := by
  rw [UInt64.and_comm w, UInt64.and_comm w, ← or_and_distrib]
  simp

theorem Aligned.address {a : UInt64} (h : Aligned a) : a &&& ~~~1 = a := by
  have hsplit := split a
  rw [h] at hsplit
  simpa using hsplit

theorem aligned_address (w : UInt64) : Aligned (w &&& ~~~1) := by
  unfold Aligned
  rw [UInt64.and_assoc]
  simp

theorem IsTag.tag {c : UInt64} (h : IsTag c) : c &&& 1 = c := by
  have hsplit := split c
  rw [h] at hsplit
  simpa using hsplit

theorem address_or {a c : UInt64} (ha : Aligned a) (hc : IsTag c) : (a ||| c) &&& ~~~1 = a := by
  rw [or_and_distrib, ha.address, hc]
  simp

theorem tag_or {a c : UInt64} (ha : Aligned a) (hc : IsTag c) : (a ||| c) &&& 1 = c := by
  rw [or_and_distrib, ha, hc.tag]
  simp

/-- Storing a new address keeps the tag. -/
theorem address_keep_tag {a : UInt64} (w : UInt64) (ha : Aligned a) :
    (a ||| (w &&& 1)) &&& ~~~1 = a := address_or ha (isTag_and_one w)

theorem tag_keep_tag {a : UInt64} (w : UInt64) (ha : Aligned a) :
    (a ||| (w &&& 1)) &&& 1 = w &&& 1 := tag_or ha (isTag_and_one w)

/-- Storing a new tag keeps the address. -/
theorem address_keep_address {c : UInt64} (w : UInt64) (hc : IsTag c) :
    ((w &&& ~~~1) ||| c) &&& ~~~1 = w &&& ~~~1 := address_or (aligned_address w) hc

theorem tag_keep_address {c : UInt64} (w : UInt64) (hc : IsTag c) :
    ((w &&& ~~~1) ||| c) &&& 1 = c := tag_or (aligned_address w) hc

end TaggedWord
