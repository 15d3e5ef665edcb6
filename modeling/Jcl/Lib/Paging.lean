/-
Module: Jcl.Lib.Paging
Layer: Library
Purpose: How often a cache misses. `lruMisses n` counts the accesses to a key that is not among the `n` most recent
  ones; `Serves h` is any other cache with room for `h` keys, which may know the accesses to come. While the first
  one misses `n` times, `n` keys beside the last one before are accessed, and the second one holds at most `h - 1`
  of them. So it misses, too, and the two numbers of misses stay in proportion.
Imports: Jcl.Lib.Recency
Trusted boundary: none (fully proved)
Main exports: lruMisses, Serves, distinct_of_misses, Serves.distinct_le, lruMisses_competitive
-/
import Jcl.Lib.Recency
import Mathlib.Data.Finset.SDiff
import Mathlib.Tactic.Ring

namespace Paging

open Recency

variable {K : Type} [DecidableEq K] {n h m k : Nat} {p : K} {past older seen keys front back : List K}
  {cache cache' final : Finset K}

/-- After the accesses `past`, how many of the coming ones are to a key that is not among the `n` most recent. -/
def lruMisses (n : Nat) : List K → List K → Nat
  | _, [] => 0
  | past, key :: keys =>
      (if key ∈ (recency past).take n then 0 else 1) + lruMisses n (past ++ [key]) keys

theorem lruMisses_append (past front back : List K) :
    lruMisses n past (front ++ back) = lruMisses n past front + lruMisses n (past ++ front) back := by
  induction front generalizing past with
  | nil => simp [lruMisses]
  | cons key front ih => rw [List.cons_append, lruMisses, lruMisses, ih, List.append_assoc, List.singleton_append,
      Nat.add_assoc]

/-- Any number of misses up to all of them is reached on the way. -/
theorem exists_split_of_le (hle : m ≤ lruMisses n past keys) :
    ∃ front back, keys = front ++ back ∧ lruMisses n past front = m := by
  induction keys generalizing past m with
  | nil => exact ⟨[], [], rfl, (Nat.le_zero.1 hle).symm⟩
  | cons key keys ih =>
      rw [lruMisses] at hle
      by_cases hin : key ∈ (recency past).take n
      · rw [if_pos hin, Nat.zero_add] at hle
        obtain ⟨front, back, rfl, hfront⟩ := ih hle
        exact ⟨key :: front, back, rfl, by rw [lruMisses, if_pos hin, hfront, Nat.zero_add]⟩
      · rw [if_neg hin] at hle
        cases m with
        | zero => exact ⟨[], key :: keys, rfl, rfl⟩
        | succ m =>
            have hrest : m ≤ lruMisses n (past ++ [key]) keys := by omega
            obtain ⟨front, back, rfl, hfront⟩ := ih hrest
            exact ⟨key :: front, back, rfl, by rw [lruMisses, if_neg hin, hfront, Nat.add_comm]⟩

/-! ### The keys that make it miss -/

/-- A key that was accessed since `p` and is missed: there are `n` keys beside `p` since then. -/
theorem distinct_of_missed_again {key : K} (hseen : key ∈ p :: seen)
    (hmiss : key ∉ (recency (older ++ p :: seen)).take n) : n ≤ (seen.toFinset.erase p).card := by
  obtain ⟨before, newer, hsplit, hlast⟩ := exists_last_access hseen
  have hcard : n ≤ newer.toFinset.card := by
    by_contra hlt
    refine hmiss (mem_take_recency.2 ⟨older ++ before, newer, ?_, hlast, Nat.lt_of_not_le hlt⟩)
    rw [hsplit, List.append_assoc]
  refine hcard.trans ?_
  cases before with
  | nil =>
      cases hsplit
      rw [Finset.erase_eq_of_notMem (by simpa using hlast)]
  | cons _ before =>
      obtain ⟨rfl, hafter⟩ := List.cons.inj hsplit
      change seen = before ++ key :: newer at hafter
      subst hafter
      by_cases hp : p ∈ newer
      · -- The key itself stands in for `p`.
        have hne : key ≠ p := fun heq => hlast (heq ▸ hp)
        have hinsert : insert key (newer.toFinset.erase p) ⊆ (before ++ key :: newer).toFinset.erase p := by
          intro j hj
          simp only [Finset.mem_insert, Finset.mem_erase, List.mem_toFinset, List.mem_append, List.mem_cons] at hj ⊢
          rcases hj with rfl | ⟨hjp, hj⟩
          · exact ⟨hne, .inr (.inl rfl)⟩
          · exact ⟨hjp, .inr (.inr hj)⟩
        refine le_trans ?_ (Finset.card_le_card hinsert)
        rw [Finset.card_insert_of_notMem (by simp [hlast]), Finset.card_erase_of_mem (by simpa using hp)]
        omega
      · refine Finset.card_le_card fun j hj => ?_
        simp only [Finset.mem_erase, List.mem_toFinset, List.mem_append, List.mem_cons] at hj ⊢
        exact ⟨fun heq => hp (heq ▸ hj), .inr (.inr hj)⟩

/-- Since an access to `p`: there are `n` keys beside `p`, or each miss is on another one. -/
theorem misses_le_distinct (older seen keys : List K) : n ≤ ((seen ++ keys).toFinset.erase p).card ∨
    lruMisses n (older ++ p :: seen) keys + (seen.toFinset.erase p).card ≤
      ((seen ++ keys).toFinset.erase p).card := by
  induction keys generalizing seen with
  | nil => simp [lruMisses]
  | cons key keys ih =>
      have hsub : (seen.toFinset.erase p) ⊆ ((seen ++ [key]).toFinset.erase p) :=
        Finset.erase_subset_erase p (by simp)
      have hall : ((seen ++ [key]).toFinset.erase p) ⊆ ((seen ++ key :: keys).toFinset.erase p) :=
        Finset.erase_subset_erase p (by simp)
      have hrest := ih (seen ++ [key])
      rw [List.append_assoc, List.singleton_append] at hrest
      refine hrest.elim .inl fun hrest => ?_
      rw [lruMisses, List.append_assoc, List.cons_append]
      by_cases hin : key ∈ (recency (older ++ p :: seen)).take n
      · right
        rw [if_pos hin, Nat.zero_add]
        exact (Nat.add_le_add_left (Finset.card_le_card hsub) _).trans hrest
      · by_cases hagain : key ∈ p :: seen
        · left
          exact (distinct_of_missed_again hagain hin).trans (Finset.card_le_card (hsub.trans hall))
        · right
          rw [List.mem_cons, not_or] at hagain
          have hcard : ((seen ++ [key]).toFinset.erase p).card = (seen.toFinset.erase p).card + 1 := by
            rw [List.toFinset_append, List.toFinset_cons, List.toFinset_nil, insert_empty_eq, Finset.union_comm,
              ← Finset.insert_eq, Finset.erase_insert_of_ne hagain.1,
              Finset.card_insert_of_notMem (by simp [hagain.2])]
          rw [hcard] at hrest
          rw [if_neg hin]
          omega

/-- While there are `n` misses, `n` keys are accessed beside the last one before. -/
theorem distinct_of_misses (hmisses : n ≤ lruMisses n (older ++ [p]) keys) :
    n ≤ (keys.toFinset.erase p).card := by
  rcases misses_le_distinct (n := n) (p := p) older [] keys with hmany | hfew
  · exact hmany
  · rw [List.nil_append] at hfew
    omega

/-! ### Any other cache -/

/-- A cache with room for `h` keys serves accesses with so many misses. Before an access it may drop keys. -/
inductive Serves (h : Nat) : Finset K → List K → Nat → Finset K → Prop where
  | nil {cache : Finset K} : Serves h cache [] 0 cache
  | hit {cache cache' final : Finset K} {key : K} {keys : List K} {m : Nat} (hmem : key ∈ cache)
      (hsub : cache' ⊆ cache) (hkey : key ∈ cache') (hroom : cache'.card ≤ h)
      (rest : Serves h cache' keys m final) : Serves h cache (key :: keys) m final
  | miss {cache cache' final : Finset K} {key : K} {keys : List K} {m : Nat} (hmem : key ∉ cache)
      (hsub : cache' ⊆ insert key cache) (hkey : key ∈ cache') (hroom : cache'.card ≤ h)
      (rest : Serves h cache' keys m final) : Serves h cache (key :: keys) (m + 1) final

/-- Every key that is accessed and was not held makes a miss. -/
theorem Serves.distinct_le (hserves : Serves h cache keys m final) : (keys.toFinset \ cache).card ≤ m := by
  induction hserves with
  | nil => simp
  | @hit cache cache' final key keys m hmem hsub _ _ _ ih =>
      refine le_trans (Finset.card_le_card fun j hj => ?_) ih
      simp only [Finset.mem_sdiff, List.mem_toFinset, List.mem_cons] at hj ⊢
      refine ⟨hj.1.resolve_left fun heq => hj.2 (heq ▸ hmem), fun hin => hj.2 (hsub hin)⟩
  | @miss cache cache' final key keys m hmem hsub _ _ _ ih =>
      have hinsert : (key :: keys).toFinset \ cache ⊆ insert key (keys.toFinset \ cache') := by
        intro j hj
        simp only [Finset.mem_sdiff, List.mem_toFinset, List.mem_cons, Finset.mem_insert] at hj ⊢
        by_cases hkey : j = key
        · exact .inl hkey
        · refine .inr ⟨hj.1.resolve_left hkey, fun hin => hj.2 ?_⟩
          exact (Finset.mem_insert.1 (hsub hin)).resolve_left hkey
      refine (Finset.card_le_card hinsert).trans ((Finset.card_insert_le _ _).trans ?_)
      exact Nat.succ_le_succ ih

/-- A cache that holds `p` has at most `h - 1` of `n` other keys. -/
theorem Serves.misses_of_distinct (hserves : Serves h cache keys m final) (hp : p ∈ cache) (hcard : cache.card ≤ h)
    (hdistinct : n ≤ (keys.toFinset.erase p).card) : n + 1 ≤ m + h := by
  have hsub : keys.toFinset.erase p ⊆ (keys.toFinset \ cache) ∪ cache.erase p := by
    intro j hj
    simp only [Finset.mem_union, Finset.mem_sdiff, Finset.mem_erase] at hj ⊢
    by_cases hin : j ∈ cache
    · exact .inr ⟨hj.1, hin⟩
    · exact .inl ⟨hj.2, hin⟩
  have hle := (Finset.card_le_card hsub).trans (Finset.card_union_le _ _)
  have hpos := Finset.card_pos.2 ⟨p, hp⟩
  rw [Finset.card_erase_of_mem hp] at hle
  have hmiss := hserves.distinct_le
  omega

/-- The accesses are served in two parts; between them the last key is held. -/
theorem Serves.split {key : K} (hserves : Serves h cache (front ++ key :: back) m final) :
    ∃ between m₁ m₂, Serves h cache (front ++ [key]) m₁ between ∧ Serves h between back m₂ final ∧
      m = m₁ + m₂ ∧ key ∈ between ∧ between.card ≤ h := by
  induction front generalizing cache m with
  | nil =>
      cases hserves with
      | hit hmem hsub hkey hroom rest => exact ⟨_, 0, _, .hit hmem hsub hkey hroom .nil, rest, by omega, hkey, hroom⟩
      | miss hmem hsub hkey hroom rest =>
          exact ⟨_, 1, _, .miss hmem hsub hkey hroom .nil, rest, by omega, hkey, hroom⟩
  | cons first front ih =>
      cases hserves with
      | hit hmem hsub hkey hroom rest =>
          obtain ⟨between, m₁, m₂, hfront, hback, hm, hlast⟩ := ih rest
          exact ⟨between, m₁, m₂, .hit hmem hsub hkey hroom hfront, hback, hm, hlast⟩
      | miss hmem hsub hkey hroom rest =>
          obtain ⟨between, m₁, m₂, hfront, hback, hm, hlast⟩ := ih rest
          exact ⟨between, m₁ + 1, m₂, .miss hmem hsub hkey hroom hfront, hback, by omega, hlast⟩

/-- After an access to a key that the other cache holds, it misses `n + 1 - h` times for each `n` misses. -/
theorem Serves.phases (hn : 0 < n) (hserves : Serves h cache keys m final) (hp : p ∈ cache)
    (hcard : cache.card ≤ h) : lruMisses n (older ++ [p]) keys / n * (n + 1 - h) ≤ m := by
  induction hlength : keys.length using Nat.strong_induction_on generalizing keys cache m older p with
  | _ length ih =>
      by_cases hmany : n ≤ lruMisses n (older ++ [p]) keys
      · obtain ⟨front, back, rfl, hfront⟩ := exists_split_of_le hmany
        obtain ⟨front, key, rfl⟩ : ∃ front' key, front = front' ++ [key] := by
          rcases List.eq_nil_or_concat front with rfl | ⟨front', key, rfl⟩
          · exact absurd hfront (Nat.ne_of_lt hn)
          · exact ⟨front', key, List.concat_eq_append⟩
        rw [lruMisses_append, hfront, Nat.add_div_left _ hn]
        rw [List.append_assoc, List.singleton_append] at hserves
        obtain ⟨between, m₁, m₂, hserves₁, hserves₂, rfl, hkey, hroom⟩ := hserves.split
        have hphase := hserves₁.misses_of_distinct hp hcard (distinct_of_misses hfront.ge)
        have hshorter : back.length < length := by
          simp only [List.length_append, List.length_singleton] at hlength
          omega
        have hrest : lruMisses n (older ++ [p] ++ front ++ [key]) back / n * (n + 1 - h) ≤ m₂ :=
          ih back.length hshorter hserves₂ hkey hroom rfl
        rw [← List.append_assoc, Nat.succ_mul]
        omega
      · rw [Nat.div_eq_of_lt (Nat.lt_of_not_le hmany), Nat.zero_mul]
        exact Nat.zero_le m

/-- From any contents of the other cache on: it misses `n + 1 - h` times for each `n` misses after the first one. -/
theorem lruMisses_competitive (hn : 0 < n) (hserves : Serves h cache keys m final) :
    (n + 1 - h) * lruMisses n [] keys ≤ n * (m + (n + 1 - h)) := by
  cases keys with
  | nil => simp [lruMisses]
  | cons key keys =>
      have hfirst : lruMisses n [] (key :: keys) = 1 + lruMisses n [key] keys := by
        rw [lruMisses, recency_nil, List.take_nil, if_neg List.not_mem_nil, List.nil_append]
      rw [← List.nil_append (key :: keys)] at hserves
      obtain ⟨between, m₁, m₂, -, hrest, rfl, hkey, hroom⟩ := hserves.split
      have hphases : lruMisses n ([] ++ [key]) keys / n * (n + 1 - h) ≤ m₂ := hrest.phases hn hkey hroom
      rw [List.nil_append] at hphases
      have hlt : lruMisses n [key] keys < (lruMisses n [key] keys / n + 1) * n :=
        Nat.lt_mul_of_div_lt (Nat.lt_succ_self _) hn
      calc (n + 1 - h) * lruMisses n [] (key :: keys)
          ≤ (n + 1 - h) * ((lruMisses n [key] keys / n + 1) * n) := Nat.mul_le_mul_left _ (by omega)
        _ = n * (lruMisses n [key] keys / n * (n + 1 - h) + (n + 1 - h)) := by ring
        _ ≤ n * (m₁ + m₂ + (n + 1 - h)) := Nat.mul_le_mul_left _ (by omega)

end Paging
