/-
Module: Jcl.Lib.Mappings
Layer: Library
Purpose: Logs of ranges of addresses that were mapped and unmapped, and what is mapped after them; nothing is unmapped
  twice where each range was mapped when it was unmapped. A set is shared out among blocks where these have no element
  in common and are all of it together; a mapping that is trimmed to a block adds that block to those that share out
  what is mapped.
Trusted boundary: none (fully proved)
Main exports: Entry, mapped, UnmapsMapped, mapped_trims, unmapsMapped_trims, SharesOut, SharesOut.cons
-/
import Mathlib.Data.Set.Lattice
import Mathlib.Order.CompletePartialOrder
import Mathlib.Order.Interval.Set.Basic

namespace Mappings

/-- A range that was mapped or unmapped, by its first address and its length. -/
inductive Entry where
  | map (start len : Nat)
  | unmap (start len : Nat)
deriving DecidableEq, Repr

/-- What is mapped after a log, with the latest entries first. -/
def mapped : List Entry → Set Nat
  | [] => ∅
  | .map start len :: log => Set.Ico start (start + len) ∪ mapped log
  | .unmap start len :: log => mapped log \ Set.Ico start (start + len)

/-- Every range was mapped, as a whole, when it was unmapped. -/
def UnmapsMapped : List Entry → Prop
  | [] => True
  | .map _ _ :: log => UnmapsMapped log
  | .unmap start len :: log => Set.Ico start (start + len) ⊆ mapped log ∧ UnmapsMapped log

/-- A range that is unmapped again. -/
structure Trim where
  start : Nat
  len : Nat
deriving DecidableEq, Repr

/-- The addresses of a trim. -/
def Trim.range (trim : Trim) : Set Nat := Set.Ico trim.start (trim.start + trim.len)

/-- The log after these trims. -/
def trimmed (trims : List Trim) (log : List Entry) : List Entry :=
  trims.foldl (fun log trim => .unmap trim.start trim.len :: log) log

theorem mapped_trimmed (trims : List Trim) (log : List Entry) :
    mapped (trimmed trims log) = {x ∈ mapped log | ∀ trim ∈ trims, x ∉ trim.range} := by
  induction trims generalizing log with
  | nil => simp [trimmed]
  | cons trim trims ih =>
      have hstep : trimmed (trim :: trims) log = trimmed trims (.unmap trim.start trim.len :: log) := rfl
      ext x
      simp only [hstep, ih, mapped, Set.mem_ofPred_eq, Set.mem_sdiff, List.forall_mem_cons, Trim.range]
      exact and_assoc

/-- A mapping of which everything but a block is unmapped again. -/
theorem mapped_trims {start len : Nat} {log : List Entry} {trims : List Trim} {block : Set Nat}
    (hfresh : Disjoint (Set.Ico start (start + len)) (mapped log)) (hblock : block ⊆ Set.Ico start (start + len))
    (htrims : ∀ x, (∃ trim ∈ trims, x ∈ trim.range) ↔ x ∈ Set.Ico start (start + len) ∧ x ∉ block) :
    mapped (trimmed trims (.map start len :: log)) = block ∪ mapped log := by
  rw [mapped_trimmed]
  ext x
  have hx := htrims x
  have hnot : (∀ trim ∈ trims, x ∉ trim.range) ↔ (x ∈ Set.Ico start (start + len) → x ∈ block) := by
    rw [← not_iff_not]
    push Not
    exact hx
  rw [Set.mem_ofPred_eq, hnot, mapped, Set.mem_union, Set.mem_union]
  constructor
  · rintro ⟨hin | hold, hkept⟩
    · exact .inl (hkept hin)
    · exact .inr hold
  · rintro (hin | hold)
    · exact ⟨.inl (hblock hin), fun _ => hin⟩
    · exact ⟨.inr hold, fun hin => absurd hold (Set.disjoint_left.1 hfresh hin)⟩

/-- Trims that have no address in common, of what is mapped. -/
theorem unmapsMapped_trimmed {trims : List Trim} {log : List Entry} (h : UnmapsMapped log)
    (hmapped : ∀ trim ∈ trims, trim.range ⊆ mapped log)
    (hapart : trims.Pairwise fun trim other => Disjoint trim.range other.range) : UnmapsMapped (trimmed trims log) := by
  induction trims generalizing log with
  | nil => exact h
  | cons trim trims ih =>
      obtain ⟨hhead, htail⟩ := List.forall_mem_cons.1 hmapped
      obtain ⟨hfirst, hrest⟩ := List.pairwise_cons.1 hapart
      have hlog : UnmapsMapped (.unmap trim.start trim.len :: log) := ⟨hhead, h⟩
      refine ih hlog (fun other hother x hx => ?_) hrest
      exact ⟨htail other hother hx, fun hx' => Set.disjoint_left.1 (hfirst other hother) hx' hx⟩

/-- The trims of a mapping of which everything but a block is unmapped again. -/
theorem unmapsMapped_trims {start len : Nat} {log : List Entry} {trims : List Trim} {block : Set Nat}
    (h : UnmapsMapped log)
    (htrims : ∀ x, (∃ trim ∈ trims, x ∈ trim.range) ↔ x ∈ Set.Ico start (start + len) ∧ x ∉ block)
    (hapart : trims.Pairwise fun trim other => Disjoint trim.range other.range) :
    UnmapsMapped (trimmed trims (.map start len :: log)) := by
  have hlog : UnmapsMapped (.map start len :: log) := h
  refine unmapsMapped_trimmed hlog (fun trim htrim x hx => ?_) hapart
  exact .inl ((htrims x).1 ⟨trim, htrim, hx⟩).1

/-- The blocks have no element in common, and all of them together are the whole. -/
structure SharesOut {α : Type} (blocks : List (Set α)) (whole : Set α) : Prop where
  apart : blocks.Pairwise Disjoint
  mem : ∀ x, x ∈ whole ↔ ∃ block ∈ blocks, x ∈ block

variable {α : Type} {blocks : List (Set α)} {whole block : Set α}

theorem SharesOut.nil : SharesOut [] (∅ : Set α) := ⟨.nil, by simp⟩

/-- One more block. -/
theorem SharesOut.cons (h : SharesOut blocks whole) (hfresh : Disjoint block whole) :
    SharesOut (block :: blocks) (block ∪ whole) where
  apart := by
    refine List.pairwise_cons.2 ⟨fun other hother => ?_, h.apart⟩
    exact hfresh.mono_right fun x hx => (h.mem x).2 ⟨other, hother, hx⟩
  mem x := by
    rw [Set.mem_union, h.mem]
    simp

theorem SharesOut.perm {blocks' : List (Set α)} (h : SharesOut blocks whole) (hperm : blocks.Perm blocks') :
    SharesOut blocks' whole where
  apart := (hperm.pairwise_iff fun hdisjoint => Disjoint.symm hdisjoint).1 h.apart
  mem x := by simp only [h.mem, hperm.mem_iff]

/-- Where some of the blocks are the whole, there is nothing in the others. -/
theorem SharesOut.rest_empty {rest : List (Set α)} (h : SharesOut (blocks ++ rest) whole)
    (hwhole : ∀ x ∈ whole, ∃ block ∈ blocks, x ∈ block) : ∀ block ∈ rest, block = ∅ := by
  intro block hblock
  refine Set.eq_empty_of_forall_notMem fun x hx => ?_
  obtain ⟨other, hother, hx'⟩ := hwhole x ((h.mem x).2 ⟨block, List.mem_append_right _ hblock, hx⟩)
  exact Set.disjoint_left.1 ((List.pairwise_append.1 h.apart).2.2 other hother block hblock) hx' hx

end Mappings
