/-
Module: Jcl.Spec.LruCache
Layer: Specification
Purpose: What an LRU cache is for: a list of entries, most recently used first. An access that finds its key
  moves the entry to the front; any other access puts a new entry there, and once the list is full the
  last entry makes room. Entries and user functions are arbitrary.
Imports: Jcl.LruCache, Jcl.Lib.System
Trusted boundary: human-reviewed spec (LruStep)
Main exports: LruFns, LruList, LruStep, lruReference, LruStep.bounded, lruReference_bounded
-/
import Jcl.LruCache
import Jcl.Lib.System

namespace Jcl

/-- The functions of the user, on entries of type `S`. -/
structure LruFns (K C S W : Type) where
  cmp : K → S → Int
  hit : S → C → W → S × W
  miss : S → C → W → S × W
  evict : S → C → W → S × W
  evictCtx : C

/-- The entries, most recently used first, and the rest of the world. -/
structure LruList (S W : Type) where
  entries : List S
  world : W

section

variable {K C S W : Type} {capacity : Nat} {fns : LruFns K C S W} {r r' : LruList S W} {w : W}
  {log : List ((K × C) × List (LruCall S C))} {l : (K × C) × List (LruCall S C)}

/-- No entry has the key. -/
def LruFns.Misses (fns : LruFns K C S W) (key : K) (entries : List S) : Prop :=
  ∀ e ∈ entries, fns.cmp key e ≠ 0

/-- An access with a key and a context, and the user functions it calls. -/
inductive LruStep (capacity : Nat) (fns : LruFns K C S W) :
    LruList S W → (K × C) × List (LruCall S C) → LruList S W → Prop where
  /-- The first entry with the key is moved to the front. -/
  | hit {before after : List S} {e : S} {w : W} {key : K} {ctx : C} (hmisses : fns.Misses key before)
      (hhit : fns.cmp key e = 0) :
      LruStep capacity fns ⟨before ++ e :: after, w⟩ ((key, ctx), [.hit e ctx])
        ⟨(fns.hit e ctx w).1 :: (before ++ after), (fns.hit e ctx w).2⟩
  /-- There is room, and a fresh slot with any contents becomes the new entry. -/
  | fresh {entries : List S} {w : W} {key : K} {ctx : C} (slot : S) (hmisses : fns.Misses key entries)
      (hroom : entries.length < capacity) :
      LruStep capacity fns ⟨entries, w⟩ ((key, ctx), [.miss slot ctx])
        ⟨(fns.miss slot ctx w).1 :: entries, (fns.miss slot ctx w).2⟩
  /-- The slot of the last entry is evicted and becomes the new entry. -/
  | evict {rest : List S} {e slot : S} {w w' : W} {key : K} {ctx : C}
      (hmisses : fns.Misses key (rest ++ [e])) (hfull : rest.length + 1 = capacity)
      (hevict : fns.evict e fns.evictCtx w = (slot, w')) :
      LruStep capacity fns ⟨rest ++ [e], w⟩ ((key, ctx), [.evict e fns.evictCtx, .miss slot ctx])
        ⟨(fns.miss slot ctx w').1 :: rest, (fns.miss slot ctx w').2⟩

/-- A hit by the place of the entry. -/
theorem LruStep.hit_at {entries : List S} {key : K} {ctx : C} {i : Nat} (hi : i < entries.length)
    (hmisses : fns.Misses key (entries.take i)) (hhit : fns.cmp key entries[i] = 0) :
    LruStep capacity fns ⟨entries, w⟩ ((key, ctx), [.hit entries[i] ctx])
      ⟨(fns.hit entries[i] ctx w).1 :: entries.eraseIdx i, (fns.hit entries[i] ctx w).2⟩ := by
  have hstep : LruStep capacity fns ⟨entries.take i ++ entries[i] :: entries.drop (i + 1), w⟩
      ((key, ctx), [.hit entries[i] ctx]) _ := .hit hmisses hhit
  rwa [List.getElem_cons_drop, List.take_append_drop, ← List.eraseIdx_eq_take_drop_succ] at hstep

/-- The reference cache with room for `capacity` entries, empty at first. -/
def lruReference (capacity : Nat) (fns : LruFns K C S W) (w : W) :
    System (LruList S W) ((K × C) × List (LruCall S C)) where
  init r := r = ⟨[], w⟩
  step := LruStep capacity fns

theorem LruStep.bounded (h : LruStep capacity fns r l r') (hle : r.entries.length ≤ capacity) :
    r'.entries.length ≤ capacity := by
  cases h with
  | hit =>
      simp only [List.length_append, List.length_cons] at hle ⊢
      omega
  | fresh _ _ hroom =>
      rw [List.length_cons]
      exact hroom
  | evict _ hfull =>
      rw [List.length_cons]
      exact hfull.le

/-- The cache never holds more entries than it has room for. -/
theorem lruReference_bounded (run : (lruReference capacity fns w).Reaches log r) :
    r.entries.length ≤ capacity := by
  refine run.invariant (P := fun r => r.entries.length ≤ capacity) ?_ fun _ _ _ hle h => h.bounded hle
  rintro _ rfl
  exact Nat.zero_le _

end

end Jcl
