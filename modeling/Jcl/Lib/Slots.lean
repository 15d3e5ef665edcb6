/-
Module: Jcl.Lib.Slots
Layer: Library
Purpose: Arrays of equally long slots in byte memory. Slots of an array that does not cross the end of the
  address space do not overlap. `readSlots` is the array as a list of byte strings; storing one slot is
  `List.set`, and moving the first slots up by one and storing another slot in front (a rotation in place)
  is moving that slot to the front of the list.
Imports: Jcl.Lib.ByteMemory
Trusted boundary: none (fully proved)
Main exports: slotAddr, slotAddr_disjoint, readSlots, readSlots_write_slot, readSlots_moveToFront
-/
import Jcl.Lib.ByteMemory

namespace ByteMemory

/-- The address of slot `i` of an array of objects of `objSize` bytes. -/
def slotAddr (memory objSize : UInt64) (i : Nat) : UInt64 := memory + UInt64.ofNat i * objSize

theorem toNat_slotAddr {memory objSize : UInt64} {n i : Nat} (hpos : 0 < objSize.toNat)
    (hfit : memory.toNat + objSize.toNat * n ≤ 2 ^ 64) (hi : i < n) :
    (slotAddr memory objSize i).toNat = memory.toNat + objSize.toNat * i := by
  have hle : objSize.toNat * (i + 1) ≤ objSize.toNat * n := Nat.mul_le_mul_left _ hi
  rw [Nat.mul_add, Nat.mul_one] at hle
  have hself : i ≤ objSize.toNat * i := Nat.le_mul_of_pos_left i hpos
  have hidx : (UInt64.ofNat i).toNat = i := by
    rw [UInt64.toNat_ofNat', Nat.mod_eq_of_lt (by omega)]
  have hmul : (UInt64.ofNat i * objSize).toNat = objSize.toNat * i := by
    rw [UInt64.toNat_mul, hidx, Nat.mul_comm, Nat.mod_eq_of_lt (by omega)]
  rw [slotAddr, UInt64.toNat_add, hmul, Nat.mod_eq_of_lt (by omega)]

/-- An address in slot `i`. -/
theorem inRange_slotAddr {memory objSize : UInt64} {n i : Nat} (hpos : 0 < objSize.toNat)
    (hfit : memory.toNat + objSize.toNat * n ≤ 2 ^ 64) (hi : i < n) {len : Nat}
    (hlen : len ≤ objSize.toNat) (x : UInt64) :
    InRange (slotAddr memory objSize i) len x ↔
      memory.toNat + objSize.toNat * i ≤ x.toNat ∧
        x.toNat < memory.toNat + objSize.toNat * i + len := by
  have haddr := toNat_slotAddr hpos hfit hi
  have hle : objSize.toNat * (i + 1) ≤ objSize.toNat * n := Nat.mul_le_mul_left _ hi
  rw [Nat.mul_add, Nat.mul_one] at hle
  rw [inRange_iff (by omega), haddr]

/-- No address lies in two slots. -/
theorem slotAddr_disjoint {memory objSize : UInt64} {n i j : Nat} (hpos : 0 < objSize.toNat)
    (hfit : memory.toNat + objSize.toNat * n ≤ 2 ^ 64) (hi : i < n) (hj : j < n) {x : UInt64}
    (hxi : InRange (slotAddr memory objSize i) objSize.toNat x)
    (hxj : InRange (slotAddr memory objSize j) objSize.toNat x) : i = j := by
  rw [inRange_slotAddr hpos hfit hi (Nat.le_refl _)] at hxi
  rw [inRange_slotAddr hpos hfit hj (Nat.le_refl _)] at hxj
  rcases Nat.lt_trichotomy i j with hlt | heq | hlt
  · have := Nat.mul_le_mul_left objSize.toNat hlt
    rw [Nat.succ_eq_add_one, Nat.mul_add, Nat.mul_one] at this
    omega
  · exact heq
  · have := Nat.mul_le_mul_left objSize.toNat hlt
    rw [Nat.succ_eq_add_one, Nat.mul_add, Nat.mul_one] at this
    omega

/-- The first `n` slots of an array. -/
def readSlots (m : ByteMemory) (memory objSize : UInt64) (n : Nat) : List (List UInt8) :=
  (List.range n).map fun i => read m (slotAddr memory objSize i) objSize.toNat

@[simp] theorem length_readSlots (m : ByteMemory) (memory objSize : UInt64) (n : Nat) :
    (readSlots m memory objSize n).length = n := by simp [readSlots]

theorem getElem_readSlots (m : ByteMemory) (memory objSize : UInt64) {n i : Nat}
    (hi : i < (readSlots m memory objSize n).length) :
    (readSlots m memory objSize n)[i] = read m (slotAddr memory objSize i) objSize.toNat := by
  simp [readSlots]

theorem readSlots_succ (m : ByteMemory) (memory objSize : UInt64) (n : Nat) :
    readSlots m memory objSize (n + 1) =
      readSlots m memory objSize n ++ [read m (slotAddr memory objSize n) objSize.toNat] := by
  simp [readSlots, List.range_succ]

section

variable {memory objSize : UInt64} {capacity n i : Nat} {bs : List UInt8}

/-- Storing one slot changes that slot. -/
theorem readSlots_write_slot (m : ByteMemory) (hpos : 0 < objSize.toNat)
    (hfit : memory.toNat + objSize.toNat * capacity ≤ 2 ^ 64) (hn : n ≤ capacity) (hi : i < capacity)
    (hbs : bs.length = objSize.toNat) :
    readSlots (write m (slotAddr memory objSize i) bs) memory objSize n =
      (readSlots m memory objSize n).set i bs := by
  apply List.ext_getElem
  · simp
  · intro j hj _
    rw [length_readSlots] at hj
    have hai := toNat_slotAddr hpos hfit hi
    have haj := toNat_slotAddr hpos hfit (show j < capacity by omega)
    have hlei : objSize.toNat * (i + 1) ≤ objSize.toNat * capacity := Nat.mul_le_mul_left _ hi
    have hlej : objSize.toNat * (j + 1) ≤ objSize.toNat * capacity := Nat.mul_le_mul_left _ (by omega)
    rw [Nat.mul_add, Nat.mul_one] at hlei hlej
    rw [getElem_readSlots, List.getElem_set]
    split
    · case isTrue heq =>
        subst heq
        rw [← hbs]
        exact read_write_same m (slotAddr memory objSize i) (by omega)
    · case isFalse hne =>
        rw [getElem_readSlots]
        refine read_write_apart m (by omega) (by omega) ?_
        rcases Nat.lt_or_gt_of_ne hne with hlt | hlt
        · have := Nat.mul_le_mul_left objSize.toNat (Nat.succ_le_of_lt hlt)
          rw [Nat.succ_eq_add_one, Nat.mul_add, Nat.mul_one] at this
          omega
        · have := Nat.mul_le_mul_left objSize.toNat (Nat.succ_le_of_lt hlt)
          rw [Nat.succ_eq_add_one, Nat.mul_add, Nat.mul_one] at this
          omega

/-- Memory after the slots before slot `i` moved up by one and the old slot `i` went to the front. -/
def moveToFront (m : ByteMemory) (memory objSize : UInt64) (i : Nat) : ByteMemory :=
  write (write m (slotAddr memory objSize 1) (read m (slotAddr memory objSize 0) (objSize.toNat * i)))
    (slotAddr memory objSize 0) (read m (slotAddr memory objSize i) objSize.toNat)

/-- The rotation in place moves one entry of the list to the front and keeps the order of the others. -/
theorem readSlots_moveToFront (m : ByteMemory) (hpos : 0 < objSize.toNat)
    (hfit : memory.toNat + objSize.toNat * capacity ≤ 2 ^ 64) (hn : n ≤ capacity) (hi : i < n) :
    readSlots (moveToFront m memory objSize i) memory objSize n =
      read m (slotAddr memory objSize i) objSize.toNat :: (readSlots m memory objSize n).eraseIdx i := by
  have hadd : ∀ j, j < n → (slotAddr memory objSize j).toNat = memory.toNat + objSize.toNat * j :=
    fun j hj => toNat_slotAddr hpos hfit (by omega)
  have hslot : ∀ j, j < n → objSize.toNat * j + objSize.toNat ≤ objSize.toNat * capacity := fun j hj => by
    have := Nat.mul_le_mul_left objSize.toNat (show j + 1 ≤ capacity by omega)
    rwa [Nat.mul_add, Nat.mul_one] at this
  have hzero := hadd 0 (by omega)
  rw [Nat.mul_zero, Nat.add_zero] at hzero
  have hsloti := hslot i hi
  apply List.ext_getElem
  · rw [List.length_cons, List.length_eraseIdx_of_lt (by simpa using hi)]
    simp only [length_readSlots]
    omega
  · intro j hj _
    rw [length_readSlots] at hj
    have haj := hadd j hj
    have hslotj := hslot j hj
    rw [getElem_readSlots, moveToFront]
    cases j with
    | zero =>
        have hlen : (read m (slotAddr memory objSize i) objSize.toNat).length = objSize.toNat := length_read ..
        rw [List.getElem_cons_zero]
        nth_rewrite 3 [← hlen]
        exact read_write_same _ _ (by omega)
    | succ k =>
        have hone := hadd 1 (by omega)
        rw [Nat.mul_one] at hone
        have hstep : objSize.toNat * (k + 1) = objSize.toNat * k + objSize.toNat := by
          rw [Nat.mul_add, Nat.mul_one]
        rw [List.getElem_cons_succ, List.getElem_eraseIdx,
          read_write_apart _ (by rw [length_read]; omega) (by omega) (by rw [length_read]; omega)]
        split
        · case isTrue hki =>
            -- The slot came from one place below.
            have hki' : objSize.toNat * k + objSize.toNat ≤ objSize.toNat * i := by
              rw [← hstep]
              exact Nat.mul_le_mul_left _ hki
            have hak := hadd k (by omega)
            have hwritten : read (write m (slotAddr memory objSize 1) (read m (slotAddr memory objSize 0)
                (objSize.toNat * i))) (slotAddr memory objSize (k + 1)) objSize.toNat =
                ((read m (slotAddr memory objSize 0) (objSize.toNat * i)).drop (objSize.toNat * k)).take
                  objSize.toNat :=
              read_write_within m (by rw [length_read]; omega) (by omega) (by rw [length_read]; omega)
            have hsource : read m (slotAddr memory objSize k) objSize.toNat =
                ((read m (slotAddr memory objSize 0) (objSize.toNat * i)).drop (objSize.toNat * k)).take
                  objSize.toNat :=
              read_within m (by omega) (by omega) (by omega)
            rw [hwritten, getElem_readSlots, hsource]
        · case isFalse hki =>
            have hki' : objSize.toNat * i ≤ objSize.toNat * k := Nat.mul_le_mul_left _ (by omega)
            rw [getElem_readSlots]
            exact read_write_apart m (by rw [length_read]; omega) (by omega) (by rw [length_read]; omega)

end

end ByteMemory
