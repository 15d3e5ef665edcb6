/-
Module: Jcl.Lib.Ledger
Layer: Library
Purpose: Logs of resources that are acquired and released. `Balanced log live` says that the log, with its latest
  entry first, acquires every resource once, releases only what is held, and leaves `live`. Its two rules extend
  a log by one entry; from them follows what a reader asks of a log, that everything released was acquired
  before and not released yet, and that everything is released once nothing is left.
Trusted boundary: none (fully proved)
Main exports: Ledger.Entry, Balanced, Balanced.released_before, Balanced.mem_of_acquired, Balanced.released_of_zero
-/
import Mathlib.Data.Multiset.Basic
import Mathlib.Data.Multiset.AddSub

namespace Ledger

/-- What happens to a resource. -/
inductive Entry (R : Type) where
  | acquired (r : R)
  | released (r : R)
deriving DecidableEq, Repr

/-- The log, latest entry first, is legal and leaves the resources `live`. -/
inductive Balanced {R : Type} : List (Entry R) → Multiset R → Prop
  | nil : Balanced [] 0
  | acquire {log : List (Entry R)} {live : Multiset R} {r : R} (h : Balanced log live)
      (hfresh : .acquired r ∉ log) : Balanced (.acquired r :: log) (r ::ₘ live)
  | release {log : List (Entry R)} {live : Multiset R} {r : R} (h : Balanced log (r ::ₘ live)) :
      Balanced (.released r :: log) live

variable {R : Type} {log newer older : List (Entry R)} {live : Multiset R} {r : R}

/-- What is live was acquired, and nothing that was not. -/
theorem Balanced.acquired_of_mem (h : Balanced log live) (hr : r ∈ live) : .acquired r ∈ log := by
  induction h with
  | nil => exact absurd hr (Multiset.notMem_zero r)
  | @acquire log live q h hfresh ih =>
      rcases Multiset.mem_cons.1 hr with rfl | hr
      · exact List.mem_cons_self
      · exact List.mem_cons_of_mem _ (ih hr)
  | release h ih => exact List.mem_cons_of_mem _ (ih (Multiset.mem_cons_of_mem hr))

/-- Nothing is live twice. -/
theorem Balanced.nodup (h : Balanced log live) : live.Nodup := by
  induction h with
  | nil => exact Multiset.nodup_zero
  | acquire h hfresh ih => exact Multiset.nodup_cons.2 ⟨fun hmem => hfresh (h.acquired_of_mem hmem), ih⟩
  | release h ih => exact (Multiset.nodup_cons.1 ih).2

/-- What was released was acquired before. -/
theorem Balanced.acquired_of_released (h : Balanced log live) (hr : .released r ∈ log) :
    .acquired r ∈ log := by
  induction h with
  | nil => exact absurd hr List.not_mem_nil
  | acquire h hfresh ih =>
      have hold : Entry.released r ∈ _ := List.mem_of_ne_of_mem (by simp) hr
      exact List.mem_cons_of_mem _ (ih hold)
  | @release log live q h ih =>
      rcases List.mem_cons.1 hr with heq | hr
      · cases heq
        exact List.mem_cons_of_mem _ (h.acquired_of_mem (Multiset.mem_cons_self r _))
      · exact List.mem_cons_of_mem _ (ih hr)

/-- What is live was not released. -/
theorem Balanced.not_released_of_mem (h : Balanced log live) (hr : r ∈ live) : .released r ∉ log := by
  induction h with
  | nil => exact absurd hr (Multiset.notMem_zero r)
  | @acquire log live q h hfresh ih =>
      intro hmem
      have hold : Entry.released r ∈ log := List.mem_of_ne_of_mem (by simp) hmem
      rcases Multiset.mem_cons.1 hr with rfl | hr
      · exact hfresh (h.acquired_of_released hold)
      · exact ih hr hold
  | @release log live q h ih =>
      intro hmem
      rcases List.mem_cons.1 hmem with heq | hmem
      · cases heq
        exact (Multiset.nodup_cons.1 h.nodup).1 hr
      · exact ih (Multiset.mem_cons_of_mem hr) hmem

/-- What was acquired and not released is live. -/
theorem Balanced.mem_of_acquired (h : Balanced log live) (hr : .acquired r ∈ log) (hnot : .released r ∉ log) :
    r ∈ live := by
  induction h with
  | nil => exact absurd hr List.not_mem_nil
  | @acquire log live q h hfresh ih =>
      rcases List.mem_cons.1 hr with heq | hr
      · cases heq
        exact Multiset.mem_cons_self r live
      · exact Multiset.mem_cons_of_mem (ih hr fun hmem => hnot (List.mem_cons_of_mem _ hmem))
  | @release log live q h ih =>
      have hold : Entry.acquired r ∈ log := List.mem_of_ne_of_mem (by simp) hr
      have hmem := ih hold fun hmem => hnot (List.mem_cons_of_mem _ hmem)
      rcases Multiset.mem_cons.1 hmem with rfl | hmem
      · exact absurd List.mem_cons_self hnot
      · exact hmem

/-- An older part of a legal log is legal. -/
theorem Balanced.of_append (h : Balanced (newer ++ older) live) : ∃ before, Balanced older before := by
  induction newer generalizing live with
  | nil => exact ⟨live, h⟩
  | cons entry newer ih =>
      cases h with
      | acquire h _ => exact ih h
      | release h => exact ih h

/-- Whatever is released was acquired before, and not released in between. -/
theorem Balanced.released_before (h : Balanced (newer ++ .released r :: older) live) :
    .acquired r ∈ older ∧ .released r ∉ older := by
  obtain ⟨before, hbefore⟩ := h.of_append
  cases hbefore with
  | release h =>
      exact ⟨h.acquired_of_mem (Multiset.mem_cons_self r _), h.not_released_of_mem (Multiset.mem_cons_self r _)⟩

/-- Once nothing is live, everything was released. -/
theorem Balanced.released_of_zero (h : Balanced log 0) (hr : .acquired r ∈ log) : .released r ∈ log := by
  by_contra hnot
  exact Multiset.notMem_zero r (h.mem_of_acquired hr hnot)

end Ledger
