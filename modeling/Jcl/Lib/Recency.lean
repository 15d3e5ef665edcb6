/-
Module: Jcl.Lib.Recency
Layer: Library
Purpose: The keys of a sequence of accesses, most recent first and each once. The first `n` keys can be kept
  up to date without the others: a key among them moves to the front, any other key comes in front and,
  if there are `n` already, the last one leaves. Hence a shorter list is always the beginning of a
  longer one. A key is among the first `n` keys if fewer than `n` other keys were accessed since it was.
Trusted boundary: none (fully proved)
Main exports: touch, recency, nodup_recency, take_touch_of_mem, take_touch_of_not_mem, mem_take_recency
-/
import Mathlib.Data.Finset.Card
import Mathlib.Data.List.Induction
import Mathlib.Data.List.Nodup

namespace Recency

variable {K : Type} [DecidableEq K] {k : K} {l : List K} {n : Nat}

/-- The list after an access to `k`. -/
def touch (k : K) (l : List K) : List K := k :: l.erase k

/-- The keys of the accesses, most recent first. -/
def recency (keys : List K) : List K := keys.foldl (fun l k => touch k l) []

theorem recency_nil : recency ([] : List K) = [] := rfl

theorem recency_concat (keys : List K) (k : K) : recency (keys ++ [k]) = touch k (recency keys) := by
  simp [recency]

theorem nodup_touch (h : l.Nodup) : (touch k l).Nodup :=
  List.nodup_cons.2 ⟨h.not_mem_erase, h.erase k⟩

theorem nodup_recency (keys : List K) : (recency keys).Nodup := by
  induction keys using List.reverseRecOn with
  | nil => exact List.nodup_nil
  | append_singleton keys k ih =>
      rw [recency_concat]
      exact nodup_touch ih

theorem take_erase_of_mem (h : k ∈ l.take (n + 1)) : (l.erase k).take n = (l.take (n + 1)).erase k := by
  induction l generalizing n with
  | nil => simp at h
  | cons a l ih =>
      by_cases ha : a = k
      · subst ha
        simp
      · rw [List.erase_cons_tail (by simpa using ha), List.take_succ_cons,
          List.erase_cons_tail (by simpa using ha)]
        have hrest : k ∈ l.take n := by
          rw [List.take_succ_cons, List.mem_cons] at h
          exact h.resolve_left fun heq => ha heq.symm
        cases n with
        | zero => simp at hrest
        | succ n => rw [List.take_succ_cons, ih hrest]

theorem take_erase_of_not_mem (h : k ∉ l.take n) : (l.erase k).take n = l.take n := by
  induction l generalizing n with
  | nil => simp
  | cons a l ih =>
      cases n with
      | zero => simp
      | succ n =>
          rw [List.take_succ_cons, List.mem_cons, not_or] at h
          rw [List.erase_cons_tail (by simpa using fun heq : a = k => h.1 heq.symm), List.take_succ_cons,
            List.take_succ_cons, ih h.2]

/-- A key among the first `n + 1` moves to the front of them. -/
theorem take_touch_of_mem (h : k ∈ l.take (n + 1)) :
    (touch k l).take (n + 1) = k :: (l.take (n + 1)).erase k := by
  rw [touch, List.take_succ_cons, take_erase_of_mem h]

/-- Any other key comes in front of the first `n` of them. -/
theorem take_touch_of_not_mem (h : k ∉ l.take (n + 1)) :
    (touch k l).take (n + 1) = k :: (l.take (n + 1)).take n := by
  rw [touch, List.take_succ_cons, List.take_take, Nat.min_eq_left (Nat.le_succ n), take_erase_of_not_mem]
  exact fun hin => h (List.take_subset_take_left l (Nat.le_succ n) hin)

/-! ### The keys since the last access -/

theorem mem_recency {keys : List K} : k ∈ recency keys ↔ k ∈ keys := by
  induction keys using List.reverseRecOn with
  | nil => rfl
  | append_singleton keys j ih =>
      rw [recency_concat, touch, List.mem_cons, List.mem_append, List.mem_singleton]
      by_cases hk : k = j
      · simp [hk]
      · rw [List.mem_erase_of_ne hk, ih]
        simp [hk]

/-- In front of a key are the keys that were accessed since it was. -/
theorem recency_split (older : List K) {newer : List K} (hlast : k ∉ newer) :
    ∃ front back, recency (older ++ k :: newer) = front ++ k :: back ∧ ∀ j, j ∈ front ↔ j ∈ newer := by
  induction newer using List.reverseRecOn with
  | nil => exact ⟨[], (recency older).erase k, recency_concat older k, fun _ => Iff.rfl⟩
  | append_singleton newer j ih =>
      rw [List.mem_append, List.mem_singleton, not_or] at hlast
      obtain ⟨front, back, hsplit, hfront⟩ := ih hlast.1
      have hmem : ∀ i, i ∈ j :: front.erase j ↔ i ∈ newer ++ [j] := by
        intro i
        rw [List.mem_cons, List.mem_append, List.mem_singleton, ← hfront]
        by_cases hi : i = j
        · simp [hi]
        · rw [List.mem_erase_of_ne hi, or_comm]
      rw [← List.cons_append, ← List.append_assoc, recency_concat, hsplit, touch, List.erase_append]
      by_cases hj : j ∈ front
      · exact ⟨j :: front.erase j, back, by simp [hj], hmem⟩
      · refine ⟨j :: front.erase j, back.erase j, ?_, hmem⟩
        rw [if_neg hj, List.erase_of_not_mem hj, List.erase_cons_tail (by simpa using hlast.2)]
        rfl

omit [DecidableEq K] in
/-- The accesses can be cut at the last one to a key. -/
theorem exists_last_access {keys : List K} (hk : k ∈ keys) :
    ∃ older newer, keys = older ++ k :: newer ∧ k ∉ newer := by
  obtain ⟨newer, older, hsplit, hlast⟩ := List.eq_append_cons_of_mem (List.mem_reverse.2 hk)
  refine ⟨older.reverse, newer.reverse, ?_, by simpa using hlast⟩
  rw [← List.reverse_reverse keys, hsplit]
  simp

/-- After the last access to a key it is among the first `n` while fewer than `n` keys were accessed since. -/
theorem mem_take_recency_split {older newer : List K} (hlast : k ∉ newer) :
    k ∈ (recency (older ++ k :: newer)).take n ↔ newer.toFinset.card < n := by
  obtain ⟨front, back, hsplit, hfront⟩ := recency_split older hlast
  have hnodup : (front ++ k :: back).Nodup := hsplit ▸ nodup_recency _
  have hcard : newer.toFinset.card = front.length := by
    rw [← List.toFinset_card_of_nodup (List.nodup_append.1 hnodup).1]
    congr 1
    ext j
    simp [hfront]
  have hk : k ∉ front := fun hin => hlast ((hfront k).1 hin)
  rw [hsplit, hcard, List.take_append, List.mem_append,
    or_iff_right fun hin => hk (List.mem_of_mem_take hin)]
  constructor
  · intro hin
    by_contra hle
    rw [Nat.sub_eq_zero_of_le (Nat.le_of_not_lt hle), List.take_zero] at hin
    exact absurd hin List.not_mem_nil
  · intro hlt
    obtain ⟨m, hm⟩ := Nat.exists_eq_succ_of_ne_zero (Nat.sub_ne_zero_of_lt hlt)
    rw [hm, List.take_succ_cons]
    exact List.mem_cons_self

/-- A key is among the first `n` exactly if it was accessed and fewer than `n` keys were accessed since. -/
theorem mem_take_recency {keys : List K} : k ∈ (recency keys).take n ↔
    ∃ older newer, keys = older ++ k :: newer ∧ k ∉ newer ∧ newer.toFinset.card < n := by
  constructor
  · intro hin
    obtain ⟨older, newer, rfl, hlast⟩ := exists_last_access (mem_recency.1 (List.mem_of_mem_take hin))
    exact ⟨older, newer, rfl, hlast, (mem_take_recency_split hlast).1 hin⟩
  · rintro ⟨older, newer, rfl, hlast, hcard⟩
    exact (mem_take_recency_split hlast).2 hcard

end Recency
