/-
Module: Jcl.Lib.ByteMemory
Layer: Library
Purpose: Byte-addressed memory with 64-bit addresses. `read` and `write` move byte strings, `loadWord`
  and `storeWord` move little-endian 64-bit words. A range is its first address and its length; `InRange`
  uses wrapping subtraction, and `inRange_iff` turns it into ordinary bounds for ranges that do not cross
  the end of the address space.
Trusted boundary: none (fully proved)
Main exports: ByteMemory, read, write, loadWord, storeWord, InRange, read_write_same, read_write_other,
  read_write_within, loadWord_storeWord, write_outside
-/
import Mathlib.Tactic.Linarith
import Mathlib.Data.List.GetD

/-- Memory as a function from addresses to bytes. -/
abbrev ByteMemory := UInt64 → UInt8

namespace ByteMemory

/-- Address `x` is one of the `n` addresses from `a` on. -/
def InRange (a : UInt64) (n : Nat) (x : UInt64) : Prop := (x - a).toNat < n

instance (a : UInt64) (n : Nat) (x : UInt64) : Decidable (InRange a n x) := Nat.decLt _ _

/-- The `n` bytes from `a` on. -/
def read (m : ByteMemory) (a : UInt64) (n : Nat) : List UInt8 :=
  (List.range n).map fun i => m (a + UInt64.ofNat i)

/-- Memory with the bytes `bs` stored from `a` on. -/
def write (m : ByteMemory) (a : UInt64) (bs : List UInt8) : ByteMemory :=
  fun x => if InRange a bs.length x then bs.getD (x - a).toNat 0 else m x

/-- The little-endian bytes of a word. -/
def wordBytes (v : UInt64) : List UInt8 :=
  (List.range 8).map fun i => UInt8.ofNat (v.toNat / 256 ^ i)

/-- The word that a little-endian byte string stands for. -/
def wordOfBytes (bs : List UInt8) : UInt64 :=
  UInt64.ofNat (bs.foldr (fun b acc => b.toNat + 256 * acc) 0)

/-- The word stored in the eight bytes from `a` on. -/
def loadWord (m : ByteMemory) (a : UInt64) : UInt64 := wordOfBytes (read m a 8)

/-- Memory with the word `v` stored in the eight bytes from `a` on. -/
def storeWord (m : ByteMemory) (a v : UInt64) : ByteMemory := write m a (wordBytes v)

theorem inRange_iff {a : UInt64} {n : Nat} (hfit : a.toNat + n ≤ 2 ^ 64) (x : UInt64) :
    InRange a n x ↔ a.toNat ≤ x.toNat ∧ x.toNat < a.toNat + n := by
  have hsub : (x - a).toNat = (2 ^ 64 - a.toNat + x.toNat) % 2 ^ 64 := UInt64.toNat_sub x a
  have ha := a.toNat_lt
  have hx := x.toNat_lt
  unfold InRange
  rw [hsub]
  by_cases hle : a.toNat ≤ x.toNat
  · have hmod : (2 ^ 64 - a.toNat + x.toNat) % 2 ^ 64 = x.toNat - a.toNat := by
      rw [Nat.mod_eq_sub_mod (by omega), Nat.mod_eq_of_lt (by omega)]
      omega
    omega
  · rw [Nat.mod_eq_of_lt (by omega)]
    omega

theorem toNat_add_ofNat_sub (a : UInt64) {i : Nat} (hi : i < 2 ^ 64) :
    (a + UInt64.ofNat i - a).toNat = i := by
  have hcancel : a + UInt64.ofNat i - a = UInt64.ofNat i := by
    rw [UInt64.add_comm, UInt64.add_sub_cancel]
  rw [hcancel, UInt64.toNat_ofNat', Nat.mod_eq_of_lt hi]

@[simp] theorem length_read (m : ByteMemory) (a : UInt64) (n : Nat) : (read m a n).length = n := by
  simp [read]

theorem read_congr {m m' : ByteMemory} {a : UInt64} {n : Nat} (hn : n ≤ 2 ^ 64)
    (h : ∀ x, InRange a n x → m' x = m x) : read m' a n = read m a n := by
  apply List.map_congr_left
  intro i hi
  have hlt : i < n := List.mem_range.1 hi
  apply h
  unfold InRange
  rw [toNat_add_ofNat_sub a (by omega)]
  exact hlt

theorem write_inside (m : ByteMemory) {a x : UInt64} {bs : List UInt8} (h : InRange a bs.length x) :
    write m a bs x = bs.getD (x - a).toNat 0 := if_pos h

/-- A write changes nothing outside its range. -/
theorem write_outside (m : ByteMemory) {a x : UInt64} {bs : List UInt8}
    (h : ¬ InRange a bs.length x) : write m a bs x = m x := if_neg h

theorem read_write_same (m : ByteMemory) (a : UInt64) {bs : List UInt8} (hn : bs.length ≤ 2 ^ 64) :
    read (write m a bs) a bs.length = bs := by
  apply List.ext_getElem
  · simp
  · intro i hi hbs
    have hsub := toNat_add_ofNat_sub a (show i < 2 ^ 64 by omega)
    have hin : InRange a bs.length (a + UInt64.ofNat i) := by
      unfold InRange
      rw [hsub]
      exact hbs
    simp only [read, List.getElem_map, List.getElem_range, write_inside m hin, hsub]
    exact List.getD_eq_getElem bs 0 hbs

/-- A read is unaffected by a write to a disjoint range. -/
theorem read_write_other (m : ByteMemory) {a b : UInt64} {n : Nat} {bs : List UInt8}
    (hn : n ≤ 2 ^ 64) (h : ∀ x, InRange b n x → ¬ InRange a bs.length x) :
    read (write m a bs) b n = read m b n :=
  read_congr hn fun x hx => write_outside m (h x hx)

/-- A part of a range that is read as a whole. -/
theorem read_within (m : ByteMemory) {a b : UInt64} {len off n : Nat} (hfit : a.toNat + len ≤ 2 ^ 64)
    (hb : b.toNat = a.toNat + off) (hle : off + n ≤ len) : read m b n = ((read m a len).drop off).take n := by
  apply List.ext_getElem
  · simp only [length_read, List.length_take, List.length_drop]
    omega
  · intro i hi _
    rw [length_read] at hi
    simp only [read, List.getElem_take, List.getElem_drop, List.getElem_map, List.getElem_range]
    congr 1
    apply UInt64.toNat_inj.1
    rw [UInt64.toNat_add, UInt64.toNat_add, UInt64.toNat_ofNat', UInt64.toNat_ofNat',
      Nat.mod_eq_of_lt (by omega : i < 2 ^ 64), Nat.mod_eq_of_lt (by omega : off + i < 2 ^ 64), hb,
      Nat.add_assoc]

/-- A part of a range that was written. -/
theorem read_write_within (m : ByteMemory) {a b : UInt64} {off n : Nat} {bs : List UInt8}
    (hfit : a.toNat + bs.length ≤ 2 ^ 64) (hb : b.toNat = a.toNat + off) (hle : off + n ≤ bs.length) :
    read (write m a bs) b n = (bs.drop off).take n := by
  rw [read_within (write m a bs) hfit hb hle, read_write_same m a (by omega)]

/-- A range below or above the one that was written. -/
theorem read_write_apart (m : ByteMemory) {a b : UInt64} {n : Nat} {bs : List UInt8}
    (hfit : a.toNat + bs.length ≤ 2 ^ 64) (hfit' : b.toNat + n ≤ 2 ^ 64)
    (h : b.toNat + n ≤ a.toNat ∨ a.toNat + bs.length ≤ b.toNat) : read (write m a bs) b n = read m b n := by
  apply read_write_other m (by omega)
  intro x hx hx'
  rw [inRange_iff hfit'] at hx
  rw [inRange_iff hfit] at hx'
  omega

@[simp] theorem length_wordBytes (v : UInt64) : (wordBytes v).length = 8 := by simp [wordBytes]

theorem wordOfBytes_wordBytes (v : UInt64) : wordOfBytes (wordBytes v) = v := by
  apply UInt64.toNat_inj.1
  have hv := v.toNat_lt
  simp only [wordOfBytes, wordBytes, List.range, List.range.loop, List.map_cons, List.map_nil,
    List.foldr_cons, List.foldr_nil, UInt8.toNat_ofNat', UInt64.toNat_ofNat']
  omega

@[simp] theorem loadWord_storeWord (m : ByteMemory) (a v : UInt64) :
    loadWord (storeWord m a v) a = v := by
  have hread := @read_write_same m a (wordBytes v) (by simp)
  rw [length_wordBytes] at hread
  rw [loadWord, storeWord, hread, wordOfBytes_wordBytes]

theorem storeWord_outside (m : ByteMemory) {a x : UInt64} (v : UInt64) (h : ¬ InRange a 8 x) :
    storeWord m a v x = m x := write_outside m (by rwa [length_wordBytes])

theorem loadWord_congr {m m' : ByteMemory} {a : UInt64} (h : ∀ x, InRange a 8 x → m' x = m x) :
    loadWord m' a = loadWord m a := by
  rw [loadWord, loadWord, read_congr (by omega) h]

end ByteMemory
