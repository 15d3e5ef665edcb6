/-
Module: Jcl.Lib.Packing
Layer: Library
Purpose: Greedy placement of aligned blocks one after another. `place e bs` starts every block at the
  least multiple of its alignment at or after the end of the block before it, beginning at `e`; `extent`
  is the end of the last block. `Packed` states the placement without mentioning how it is computed, and
  it moves with the base address when every alignment divides that base.
Imports: Jcl.Lib.WordAlign
Trusted boundary: none (fully proved)
Main exports: Block, Region, place, extent, Packed, place_packed, Packed.pairwise, Packed.shift
-/
import Jcl.Lib.WordAlign
import Mathlib.Order.Bounds.Defs

namespace Packing

open WordAlign

/-- A block to place: its length and the alignment of its first address. -/
structure Block where
  size : Nat
  align : Nat

/-- A placed block: the half-open interval `[start, start + size)`. -/
structure Region where
  start : Nat
  size : Nat
  align : Nat

/-- One past the last address of a region. -/
def Region.stop (r : Region) : Nat := r.start + r.size

/-- The region moved up by `base`. -/
def Region.shift (base : Nat) (r : Region) : Region := { r with start := base + r.start }

/-- Greedy placement from address `e` on. -/
def place : Nat → List Block → List Region
  | _, [] => []
  | e, b :: bs =>
      let start := roundUp e b.align
      { start := start, size := b.size, align := b.align } :: place (start + b.size) bs

/-- The end of the last block placed from address `e` on. -/
def extent : Nat → List Block → Nat
  | e, [] => e
  | e, b :: bs => extent (roundUp e b.align + b.size) bs

/-- Every region starts at the least multiple of its alignment at or after the end of its predecessor;
    the first one at or after `e`. -/
def Packed : Nat → List Region → Prop
  | _, [] => True
  | e, r :: rs => IsLeast {a | r.align ∣ a ∧ e ≤ a} r.start ∧ Packed r.stop rs

theorem roundUp_isLeast (e : Nat) {a : Nat} (ha : 0 < a) :
    IsLeast {m | a ∣ m ∧ e ≤ m} (roundUp e a) :=
  ⟨⟨dvd_roundUp e a, le_roundUp e ha⟩, fun _ hm => roundUp_least hm.1 hm.2⟩

theorem place_packed : ∀ {bs : List Block} (e : Nat), (∀ b ∈ bs, 0 < b.align) → Packed e (place e bs)
  | [], _, _ => trivial
  | b :: _, e, hpos =>
      ⟨roundUp_isLeast e (hpos b (by simp)),
        place_packed _ fun c hc => hpos c (List.mem_cons_of_mem b hc)⟩

theorem le_extent {bs : List Block} (e : Nat) (hpos : ∀ b ∈ bs, 0 < b.align) : e ≤ extent e bs := by
  induction bs generalizing e with
  | nil => exact Nat.le_refl e
  | cons b bs ih =>
      have hstart : e ≤ roundUp e b.align := le_roundUp e (hpos b (by simp))
      have hrest : roundUp e b.align + b.size ≤ extent (roundUp e b.align + b.size) bs :=
        ih _ fun c hc => hpos c (List.mem_cons_of_mem b hc)
      exact Nat.le_trans (Nat.le_trans hstart (Nat.le_add_right _ _)) hrest

/-- Every placed region ends inside the extent. -/
theorem stop_le_extent : ∀ {bs : List Block} (e : Nat), (∀ b ∈ bs, 0 < b.align) →
    ∀ r ∈ place e bs, r.stop ≤ extent e bs
  | [], _, _, _, hr => by simp [place] at hr
  | b :: bs, e, hpos, r, hr => by
      have htail : ∀ c ∈ bs, 0 < c.align := fun c hc => hpos c (List.mem_cons_of_mem b hc)
      rcases List.mem_cons.1 hr with rfl | hr
      · exact le_extent _ htail
      · exact stop_le_extent _ htail r hr

/-- Regions of a packed list come after the address the packing starts from. -/
theorem Packed.le_start : ∀ {rs : List Region} {e : Nat}, Packed e rs → ∀ r ∈ rs, e ≤ r.start
  | [], _, _, _, hr => by simp at hr
  | q :: _, _, hp, r, hr => by
      rcases List.mem_cons.1 hr with rfl | hr
      · exact hp.1.1.2
      · have hq : q.stop ≤ r.start := Packed.le_start hp.2 r hr
        exact Nat.le_trans (Nat.le_trans hp.1.1.2 (Nat.le_add_right _ _)) hq

/-- Packed regions are pairwise disjoint, in list order. -/
theorem Packed.pairwise : ∀ {rs : List Region} {e : Nat}, Packed e rs →
    rs.Pairwise fun r s => r.stop ≤ s.start
  | [], _, _ => List.Pairwise.nil
  | _ :: _, _, hp => List.Pairwise.cons (Packed.le_start hp.2) (Packed.pairwise hp.2)

theorem Region.shift_isLeast {r : Region} {e base : Nat} (hbase : r.align ∣ base)
    (h : IsLeast {a | r.align ∣ a ∧ e ≤ a} r.start) :
    IsLeast {a | (r.shift base).align ∣ a ∧ base + e ≤ a} (r.shift base).start := by
  refine ⟨⟨(Nat.dvd_add_right hbase).2 h.1.1, Nat.add_le_add_left h.1.2 base⟩, ?_⟩
  rintro m ⟨hdvd, hle⟩
  have hsub : r.align ∣ m - base := Nat.dvd_sub hdvd hbase
  have hstart : r.start ≤ m - base := h.2 ⟨hsub, by omega⟩
  change base + r.start ≤ m
  omega

/-- A packing keeps its shape when it is moved to a base that every alignment divides. -/
theorem Packed.shift {base : Nat} : ∀ {rs : List Region} {e : Nat}, Packed e rs →
    (∀ r ∈ rs, r.align ∣ base) → Packed (base + e) (rs.map (Region.shift base))
  | [], _, _, _ => trivial
  | r :: rs, _, hp, hdvd => by
      refine ⟨Region.shift_isLeast (hdvd r (by simp)) hp.1, ?_⟩
      have htail := Packed.shift hp.2 fun s hs => hdvd s (List.mem_cons_of_mem r hs)
      have hstop : (r.shift base).stop = base + r.stop := Nat.add_assoc _ _ _
      rw [hstop]
      exact htail

/-- Every placed region is one of the blocks. -/
theorem mem_place {bs : List Block} {e : Nat} {r : Region} (hr : r ∈ place e bs) :
    ∃ b ∈ bs, r.align = b.align ∧ r.size = b.size := by
  induction bs generalizing e with
  | nil => simp [place] at hr
  | cons b bs ih =>
      rcases List.mem_cons.1 hr with rfl | hr
      · exact ⟨b, by simp, rfl, rfl⟩
      · obtain ⟨c, hc, heq⟩ := ih hr
        exact ⟨c, List.mem_cons_of_mem b hc, heq⟩

/-- The start addresses of a placement. -/
def starts (e : Nat) (bs : List Block) : List Nat := (place e bs).map Region.start

@[simp] theorem starts_cons (e : Nat) (b : Block) (bs : List Block) :
    starts e (b :: bs) = roundUp e b.align :: starts (roundUp e b.align + b.size) bs := rfl

@[simp] theorem length_starts (e : Nat) (bs : List Block) : (starts e bs).length = bs.length := by
  induction bs generalizing e with
  | nil => rfl
  | cons b bs ih => simp [ih]

/-- Nonempty blocks start after the address they are placed from and before the end of the placement. -/
theorem starts_bounds {bs : List Block} {e : Nat} (hpos : ∀ b ∈ bs, 0 < b.align)
    (hsize : ∀ b ∈ bs, 0 < b.size) : ∀ a ∈ starts e bs, e ≤ a ∧ a < extent e bs := by
  intro a ha
  obtain ⟨r, hr, rfl⟩ := List.mem_map.1 ha
  obtain ⟨b, hb, -, heq⟩ := mem_place hr
  have hnonempty : 0 < r.size := heq ▸ hsize b hb
  have hstop : r.start + r.size ≤ extent e bs := stop_le_extent e hpos r hr
  exact ⟨(place_packed e hpos).le_start r hr, by omega⟩

end Packing
