/-
Module: Jcl.Lib.Custody
Layer: Library
Purpose: Resources that are handed out again once they were released, like the numbers of descriptors, and who holds
  them. `Legal log` says that nothing is acquired while it is live and that only what is live is released; then the
  entries about one resource alternate. `Custody holds log` says beside that that each live resource has exactly one
  holder. Its rules give a resource to a holder without one and take it from its holder; a resource that is given to
  a holder with another one, or to nobody, is lost. `Tenancy holds log` leaves it at that no resource has two holders,
  and allows for what is lost; `Guard` is what both have in common.
Imports: Jcl.Lib.Ledger
Trusted boundary: none (fully proved)
Main exports: unreleased, Legal, Untouched, Legal.fate, Legal.last_acquired, Custody, Custody.acquire,
  Custody.release, Custody.lost_overwritten, Custody.lost_dropped, Guard, Tenancy, Tenancy.replace, Tenancy.drop
-/
import Jcl.Lib.Ledger
import Mathlib.Data.List.Nodup
import Mathlib.Logic.Function.Basic

namespace Ledger

variable {R H : Type} {log newer older part : List (Entry R)} {r q : R}

/-- The resource that an entry is about. -/
def Entry.resource : Entry R → R
  | .acquired r => r
  | .released r => r

/-- No entry of this part is about the resource. -/
def Untouched (r : R) (part : List (Entry R)) : Prop := ∀ entry ∈ part, entry.resource ≠ r

theorem Untouched.nil (r : R) : Untouched r [] := fun _ hmem => absurd hmem List.not_mem_nil

theorem Untouched.cons {entry : Entry R} (hne : entry.resource ≠ r) (h : Untouched r part) :
    Untouched r (entry :: part) := by
  intro other hmem
  rcases List.mem_cons.1 hmem with rfl | hmem
  · exact hne
  · exact h other hmem

variable [DecidableEq R]

/-- What was acquired and not released since, with the latest entry of the log first. -/
def unreleased : List (Entry R) → List R
  | [] => []
  | .acquired r :: log => r :: unreleased log
  | .released r :: log => (unreleased log).erase r

/-- Nothing is acquired while it is live, and only what is live is released. -/
def Legal : List (Entry R) → Prop
  | [] => True
  | .acquired r :: log => r ∉ unreleased log ∧ Legal log
  | .released r :: log => r ∈ unreleased log ∧ Legal log

theorem Legal.of_cons {entry : Entry R} (h : Legal (entry :: log)) : Legal log := by
  cases entry with
  | acquired r => exact h.2
  | released r => exact h.2

theorem Legal.of_append (h : Legal (newer ++ older)) : Legal older := by
  induction newer with
  | nil => exact h
  | cons entry newer ih => exact ih h.of_cons

theorem Legal.nodup (h : Legal log) : (unreleased log).Nodup := by
  induction log with
  | nil => exact List.nodup_nil
  | cons entry log ih =>
      cases entry with
      | acquired r => exact List.nodup_cons.2 ⟨h.1, ih h.2⟩
      | released r => exact (ih h.2).erase r

/-- An entry does not change what is live beside its own resource. -/
theorem Legal.mem_unreleased_cons {entry : Entry R} (h : Legal (entry :: log)) (hne : entry.resource ≠ r) :
    r ∈ unreleased (entry :: log) ↔ r ∈ unreleased log := by
  cases entry with
  | acquired q =>
      change r ∈ q :: unreleased log ↔ _
      rw [List.mem_cons, or_iff_right (fun heq => hne heq.symm)]
  | released q => exact List.mem_erase_of_ne fun heq => hne heq.symm

theorem Legal.not_mem_released (h : Legal (.released r :: log)) : r ∉ unreleased (.released r :: log) :=
  h.2.nodup.not_mem_erase

/-- What becomes of a resource that was acquired: it is live and was not touched since, or the next thing that
    happened to it is that it was released. -/
theorem Legal.fate (h : Legal (newer ++ .acquired r :: older)) :
    (r ∈ unreleased (newer ++ .acquired r :: older) ∧ Untouched r newer) ∨
      ∃ later between, newer = later ++ .released r :: between ∧ Untouched r between := by
  induction newer with
  | nil => exact .inl ⟨List.mem_cons_self, Untouched.nil r⟩
  | cons entry newer ih =>
      rcases ih h.of_cons with ⟨hlive, huntouched⟩ | ⟨later, between, heq, huntouched⟩
      · by_cases hsame : entry.resource = r
        · cases entry with
          | acquired q =>
              cases hsame
              exact absurd hlive h.1
          | released q =>
              cases hsame
              exact .inr ⟨[], newer, rfl, huntouched⟩
        · exact .inl ⟨(h.mem_unreleased_cons hsame).2 hlive, huntouched.cons hsame⟩
      · exact .inr ⟨entry :: later, between, by rw [heq, List.cons_append], huntouched⟩

/-- What is live was acquired and not touched since. -/
theorem Legal.last_acquired (h : Legal log) (hlive : r ∈ unreleased log) :
    ∃ between before, log = between ++ .acquired r :: before ∧ Untouched r between := by
  induction log with
  | nil => exact absurd hlive List.not_mem_nil
  | cons entry log ih =>
      by_cases hsame : entry.resource = r
      · cases entry with
        | acquired q =>
            cases hsame
            exact ⟨[], log, rfl, Untouched.nil q⟩
        | released q =>
            cases hsame
            exact absurd hlive h.not_mem_released
      · obtain ⟨between, before, heq, huntouched⟩ := ih h.of_cons ((h.mem_unreleased_cons hsame).1 hlive)
        exact ⟨entry :: between, before, by rw [heq, List.cons_append], huntouched.cons hsame⟩

/-- Whatever is released was live. -/
theorem Legal.unreleased_before (h : Legal (newer ++ .released r :: older)) : r ∈ unreleased older := h.of_append.1

/-! ### Holders -/

/-- Each live resource has exactly one holder, and nothing else is held. -/
structure Custody (holds : H → Option R) (log : List (Entry R)) : Prop where
  legal : Legal log
  once : ∀ r ∈ unreleased log, ∃! k, holds k = some r
  held : ∀ k r, holds k = some r → r ∈ unreleased log

variable {holds : H → Option R} {k : H}

theorem Custody.start : Custody (fun _ : H => none) ([] : List (Entry R)) where
  legal := trivial
  once r hlive := absurd hlive List.not_mem_nil
  held k r hheld := by cases hheld

theorem Custody.eq_of_held (h : Custody holds log) {k k' : H} (hk : holds k = some r) (hk' : holds k' = some r) :
    k = k' := (h.once r (h.held k r hk)).unique hk hk'

variable [DecidableEq H]

omit [DecidableEq R] in
/-- Who holds a resource once the holdings of `k` were replaced. -/
theorem holds_update_iff {value : Option R} {k' : H} : Function.update holds k value k' = some q ↔
    (k' = k ∧ value = some q) ∨ (k' ≠ k ∧ holds k' = some q) := by
  by_cases hsame : k' = k
  · subst hsame
    simp
  · simp [hsame]

/-- A holder without a resource takes a new one. -/
theorem Custody.acquire (h : Custody holds log) (hnone : holds k = none) (hfresh : r ∉ unreleased log) :
    Custody (Function.update holds k (some r)) (.acquired r :: log) where
  legal := ⟨hfresh, h.legal⟩
  once q hlive := by
    rcases List.mem_cons.1 hlive with rfl | hlive
    · refine ⟨k, holds_update_iff.2 (.inl ⟨rfl, rfl⟩), ?_⟩
      intro k' hk'
      rcases holds_update_iff.1 hk' with ⟨hsame, -⟩ | ⟨-, hother⟩
      · exact hsame
      · exact absurd (h.held k' q hother) hfresh
    · obtain ⟨k', hk', hunique⟩ := h.once q hlive
      have hne : k' ≠ k := by
        rintro rfl
        rw [hnone] at hk'
        cases hk'
      refine ⟨k', holds_update_iff.2 (.inr ⟨hne, hk'⟩), ?_⟩
      intro k'' hk''
      rcases holds_update_iff.1 hk'' with ⟨-, hnew⟩ | ⟨-, hother⟩
      · cases hnew
        exact absurd hlive hfresh
      · exact hunique k'' hother
  held k' q hk' := by
    rcases holds_update_iff.1 hk' with ⟨-, hnew⟩ | ⟨-, hother⟩
    · cases hnew
      exact List.mem_cons_self
    · exact List.mem_cons_of_mem r (h.held k' q hother)

/-- The holder of a resource gives it back. -/
theorem Custody.release (h : Custody holds log) (hheld : holds k = some r) :
    Custody (Function.update holds k none) (.released r :: log) where
  legal := ⟨h.held k r hheld, h.legal⟩
  once q hlive := by
    have hlegal : Legal (.released r :: log) := ⟨h.held k r hheld, h.legal⟩
    obtain ⟨k', hk', hunique⟩ := h.once q (List.mem_of_mem_erase hlive)
    have hne : k' ≠ k := by
      rintro rfl
      rw [hheld] at hk'
      cases hk'
      exact hlegal.not_mem_released hlive
    refine ⟨k', holds_update_iff.2 (.inr ⟨hne, hk'⟩), ?_⟩
    intro k'' hk''
    rcases holds_update_iff.1 hk'' with ⟨-, hnew⟩ | ⟨-, hother⟩
    · cases hnew
    · exact hunique k'' hother
  held k' q hk' := by
    rcases holds_update_iff.1 hk' with ⟨-, hnew⟩ | ⟨hne, hother⟩
    · cases hnew
    · refine (List.mem_erase_of_ne ?_).2 (h.held k' q hother)
      rintro rfl
      exact hne (h.eq_of_held hother hheld)

/-- What the holder of `r` held before is live, and held by nobody. -/
theorem Custody.lost_overwritten (h : Custody holds log) (hheld : holds k = some q) (hfresh : r ∉ unreleased log) :
    q ∈ unreleased (.acquired r :: log) ∧ ∀ k', Function.update holds k (some r) k' ≠ some q := by
  have hlive : q ∈ unreleased log := h.held k q hheld
  refine ⟨List.mem_cons_of_mem r hlive, ?_⟩
  intro k' hk'
  rcases holds_update_iff.1 hk' with ⟨-, hnew⟩ | ⟨hne, hother⟩
  · cases hnew
    exact hfresh hlive
  · exact hne (h.eq_of_held hother hheld)

omit [DecidableEq H] in
/-- A new resource that is given to nobody is live, and held by nobody. -/
theorem Custody.lost_dropped (h : Custody holds log) (hfresh : r ∉ unreleased log) :
    r ∈ unreleased (.acquired r :: log) ∧ ∀ k, holds k ≠ some r :=
  ⟨List.mem_cons_self, fun k hk => hfresh (h.held k r hk)⟩

/-! ### Holders, and what was lost -/

/-- A discipline that allows for taking and giving back. -/
class Guard (P : (H → Option R) → List (Entry R) → Prop) : Prop where
  acquire : ∀ {holds log k r}, P holds log → holds k = none → r ∉ unreleased log →
    P (Function.update holds k (some r)) (.acquired r :: log)
  release : ∀ {holds log k r}, P holds log → holds k = some r → P (Function.update holds k none) (.released r :: log)

instance : Guard (Custody (R := R) (H := H)) := ⟨Custody.acquire, Custody.release⟩

omit [DecidableEq H] in
/-- What is held is live, and no two hold the same. -/
structure Tenancy (holds : H → Option R) (log : List (Entry R)) : Prop where
  legal : Legal log
  held : ∀ k r, holds k = some r → r ∈ unreleased log
  unique : ∀ k k' r, holds k = some r → holds k' = some r → k = k'

omit [DecidableEq H] in
theorem Custody.tenancy (h : Custody holds log) : Tenancy holds log := ⟨h.legal, h.held, fun _ _ _ => h.eq_of_held⟩

/-- A holder takes a new resource, and loses the one that it has. -/
theorem Tenancy.replace (h : Tenancy holds log) (hfresh : r ∉ unreleased log) :
    Tenancy (Function.update holds k (some r)) (.acquired r :: log) where
  legal := ⟨hfresh, h.legal⟩
  held k' q hk' := by
    rcases holds_update_iff.1 hk' with ⟨-, hnew⟩ | ⟨-, hother⟩
    · cases hnew
      exact List.mem_cons_self
    · exact List.mem_cons_of_mem r (h.held k' q hother)
  unique k₁ k₂ q h₁ h₂ := by
    rcases holds_update_iff.1 h₁ with ⟨rfl, hnew₁⟩ | ⟨-, hother₁⟩ <;>
      rcases holds_update_iff.1 h₂ with ⟨rfl, hnew₂⟩ | ⟨-, hother₂⟩
    · rfl
    · cases hnew₁
      exact absurd (h.held k₂ _ hother₂) hfresh
    · cases hnew₂
      exact absurd (h.held k₁ _ hother₁) hfresh
    · exact h.unique k₁ k₂ q hother₁ hother₂

omit [DecidableEq H] in
/-- Nobody takes the new resource. -/
theorem Tenancy.drop (h : Tenancy holds log) (hfresh : r ∉ unreleased log) : Tenancy holds (.acquired r :: log) :=
  ⟨⟨hfresh, h.legal⟩, fun k q hk => List.mem_cons_of_mem r (h.held k q hk), h.unique⟩

/-- The holder of a resource gives it back. -/
theorem Tenancy.release (h : Tenancy holds log) (hheld : holds k = some r) :
    Tenancy (Function.update holds k none) (.released r :: log) where
  legal := ⟨h.held k r hheld, h.legal⟩
  held k' q hk' := by
    rcases holds_update_iff.1 hk' with ⟨-, hnew⟩ | ⟨hne, hother⟩
    · cases hnew
    · refine (List.mem_erase_of_ne ?_).2 (h.held k' q hother)
      rintro rfl
      exact hne (h.unique k' k q hother hheld)
  unique k₁ k₂ q h₁ h₂ := by
    rcases holds_update_iff.1 h₁ with ⟨-, hnew₁⟩ | ⟨-, hother₁⟩
    · cases hnew₁
    · rcases holds_update_iff.1 h₂ with ⟨-, hnew₂⟩ | ⟨-, hother₂⟩
      · cases hnew₂
      · exact h.unique k₁ k₂ q hother₁ hother₂

instance : Guard (Tenancy (R := R) (H := H)) := ⟨fun h _ => h.replace, Tenancy.release⟩

end Ledger
