/-
Module: Jcl.Proofs.LruMisses
Layer: Proofs
Purpose: How often a cache calls `miss`. An access is a hit exactly if fewer keys than there are slots were accessed
  since its key was; and over any sequence of accesses the cache stays within a constant factor of every other
  cache, also of one that knows the accesses to come.
Imports: Jcl.Lib.Paging, Jcl.Proofs.LruKeys
Trusted boundary: human-reviewed spec (missed)
Main exports: lru_reuse_distance, missed, lru_misses, lru_competitive
-/
import Jcl.Lib.Paging
import Jcl.Proofs.LruKeys

namespace Jcl

open Recency

section

variable {K C W : Type} {user : LruUser K C W} {s : LruState K C W} {w : W} {c : MlgComponent}
  {keyOf : List UInt8 → Option K} {log : List ((K × C) × List (LruCall (List UInt8) C))}

/-- The access called `miss`. -/
def missed (l : (K × C) × List (LruCall (List UInt8) C)) : Bool :=
  l.2.any fun
    | .miss _ _ => true
    | _ => false

theorem LruStep.missed_iff {n : Nat} {r r' : LruList (List UInt8) W}
    {l : (K × C) × List (LruCall (List UInt8) C)} (h : LruStep n user.fns r l r') : missed l = true ↔ ¬ Hit l := by
  cases h with
  | hit => simp [missed, Hit]
  | fresh => simp [missed, Hit]
  | evict => simp [missed, Hit]

variable [Build] [DecidableEq K]

/-- An access is a hit exactly if its key was accessed before and fewer keys than there are slots were accessed since
    then. -/
theorem lru_reuse_distance (hkeyed : KeyedUser user c.desc.size.toNat keyOf) (hfits : c.Fits)
    (run : (lruSystem c user w).Reaches log s)
    (hstores : ∀ l ∈ log, StoresKey user c.desc.size.toNat keyOf l.1) (i : Nat) (hi : i < log.length) :
    Hit log[i] ↔ ∃ older newer, (log.map (·.1.1)).take i = older ++ log[i].1.1 :: newer ∧
      log[i].1.1 ∉ newer ∧ newer.toFinset.card < c.desc.count.toNat := by
  rw [(lru_keys hkeyed hfits run hstores).2 i hi]
  exact mem_take_recency

/-- The accesses that call `miss` are those to a key that is not among the most recent ones. -/
theorem lru_misses (hkeyed : KeyedUser user c.desc.size.toNat keyOf) (hfits : c.Fits)
    (run : (lruSystem c user w).Reaches log s)
    (hstores : ∀ l ∈ log, StoresKey user c.desc.size.toNat keyOf l.1) :
    log.countP missed = Paging.lruMisses c.desc.count.toNat [] (log.map (·.1.1)) := by
  induction run with
  | init => rfl
  | @step log s s' l run hstep ih =>
      have hprefix := ih fun l hl => hstores l (List.mem_append_left _ hl)
      have hlast := (lru_keys hkeyed hfits (.step run hstep) hstores).2 log.length (by simp)
      rw [List.getElem_concat_length rfl, List.map_append, List.take_left' (List.length_map _)] at hlast
      have hmissed : missed l = true ↔ l.1.1 ∉ (recency (log.map (·.1.1))).take c.desc.count.toNat := by
        obtain ⟨r, -, h⟩ := lruSystem_simulated hfits run
        obtain ⟨⟨key, ctx⟩, calls⟩ := l
        obtain ⟨l, r', hlru, -, hl⟩ := (jfsLruAccess_spec h).det hstep.1
        obtain rfl : calls = l := List.append_cancel_left (hstep.2.symm.trans hl)
        rw [hlru.missed_iff, hlast]
      rw [List.countP_append, List.map_append, Paging.lruMisses_append, hprefix, List.nil_append]
      congr 1
      by_cases hin : l.1.1 ∈ (recency (log.map (·.1.1))).take c.desc.count.toNat
      · have hnot : missed l = false := Bool.eq_false_iff.2 fun h => hmissed.1 h hin
        simp [Paging.lruMisses, hin, hnot]
      · simp [Paging.lruMisses, hin, hmissed.2 hin]

/-- For every sequence of accesses and every other cache with room for `h` keys, no larger than this one: with
    `count` slots the calls of `miss` are at most `count / (count + 1 - h)` times its misses, and `count` more. -/
theorem lru_competitive (hkeyed : KeyedUser user c.desc.size.toNat keyOf) (hfits : c.Fits)
    (run : (lruSystem c user w).Reaches log s)
    (hstores : ∀ l ∈ log, StoresKey user c.desc.size.toNat keyOf l.1) {h m : Nat} {cache final : Finset K}
    (hserves : Paging.Serves h cache (log.map (·.1.1)) m final) :
    (c.desc.count.toNat + 1 - h) * log.countP missed ≤
      c.desc.count.toNat * (m + (c.desc.count.toNat + 1 - h)) := by
  obtain ⟨r, -, hinv⟩ := lruSystem_simulated hfits run
  rw [lru_misses hkeyed hfits run hstores]
  exact Paging.lruMisses_competitive hinv.valid.count hserves

end

/-- Accesses with the keys 7, 8 and 7 to a cache with two slots. -/
theorem three_accesses : letI : Build := ⟨true⟩
    ∃ l₁ l₂ l₃ s, (lruSystem sampleLruComponent sampleLruUser ()).Reaches
        [((7, 7), l₁), ((8, 8), l₂), ((7, 7), l₃)] s ∧
      ∀ l ∈ [((7, 7), l₁), ((8, 8), l₂), ((7, 7), l₃)], StoresKey sampleLruUser 1 List.head? l.1 := by
  let : Build := ⟨true⟩
  have hfits : sampleLruComponent.Fits := by decide
  obtain ⟨l₁, -, run₁⟩ := lruSystem_access hfits (.init sampleLruState_init) 7 7
  obtain ⟨l₂, -, run₂⟩ := lruSystem_access hfits run₁ 8 8
  obtain ⟨l₃, -, run₃⟩ := lruSystem_access hfits run₂ 7 7
  refine ⟨l₁, l₂, l₃, _, run₃, ?_⟩
  intro l hl
  simp only [List.mem_cons, List.not_mem_nil, or_false] at hl
  rcases hl with rfl | rfl | rfl
  · exact sampleLruUser_stores 7
  · exact sampleLruUser_stores 8
  · exact sampleLruUser_stores 7

/-- The last of the three accesses is a hit. -/
theorem lru_reuse_distance_three : letI : Build := ⟨true⟩
    ∃ l₁ l₂ l₃ s, (lruSystem sampleLruComponent sampleLruUser ()).Reaches
        [((7, 7), l₁), ((8, 8), l₂), ((7, 7), l₃)] s ∧ Hit (((7 : UInt8), (7 : UInt8)), l₃) := by
  let : Build := ⟨true⟩
  obtain ⟨l₁, l₂, l₃, s, run, hstores⟩ := three_accesses
  have hfits : sampleLruComponent.Fits := by decide
  refine ⟨l₁, l₂, l₃, s, run, ?_⟩
  have hlast : (7 : UInt8) ∉ [(8 : UInt8)] := by decide
  exact (lru_reuse_distance sampleLruUser_keyed hfits run hstores 2 (by simp)).2 ⟨[], [8], rfl, hlast, by decide⟩

/-- A cache with one slot misses all three of them; the bound for the two misses here is met. -/
theorem lru_competitive_three : letI : Build := ⟨true⟩
    ∃ l₁ l₂ l₃ s, (lruSystem sampleLruComponent sampleLruUser ()).Reaches
        [((7, 7), l₁), ((8, 8), l₂), ((7, 7), l₃)] s ∧
      (2 + 1 - 1) * [((7, 7), l₁), ((8, 8), l₂), ((7, 7), l₃)].countP missed ≤ 2 * (3 + (2 + 1 - 1)) := by
  let : Build := ⟨true⟩
  obtain ⟨l₁, l₂, l₃, s, run, hstores⟩ := three_accesses
  have hfits : sampleLruComponent.Fits := by decide
  have hthird : Paging.Serves 1 {(8 : UInt8)} [7] 1 {7} :=
    .miss (by decide) (by decide) (by decide) (by decide) .nil
  have hsecond : Paging.Serves 1 {(7 : UInt8)} [8, 7] 2 {7} :=
    .miss (by decide) (by decide) (by decide) (by decide) hthird
  have hserves : Paging.Serves 1 ∅ [(7 : UInt8), 8, 7] 3 {7} :=
    .miss (by decide) (by decide) (by decide) (by decide) hsecond
  exact ⟨l₁, l₂, l₃, s, run, lru_competitive sampleLruUser_keyed hfits run hstores hserves⟩

end Jcl
