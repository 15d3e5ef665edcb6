/-
Module: Jcl.Lib.Chain
Layer: Library
Purpose: NULL-terminated singly linked lists in memory. `Chain next null p l` says that following `next`
  from `p` visits exactly the cells `l` and then reaches `null`. The memory is only seen through `next`,
  so the same facts serve a byte memory and a typed one.
Trusted boundary: none (fully proved)
Main exports: Chain, Chain.congr, Chain.unique, Chain.nodup, Chain.null_not_mem, insertAfter, Chain.link,
  flatMap_insertAfter
-/
import Mathlib.Data.List.Nodup

/-- Following `next` from `p` visits the cells of `l` in order and then reaches `null`. -/
def Chain {A : Type} (next : A → A) (null : A) : A → List A → Prop
  | p, [] => p = null
  | p, q :: l => p = q ∧ q ≠ null ∧ Chain next null (next q) l

instance Chain.decidable {A : Type} [DecidableEq A] (next : A → A) (null : A) :
    (p : A) → (l : List A) → Decidable (Chain next null p l)
  | p, [] => inferInstanceAs (Decidable (p = null))
  | p, q :: l =>
      have := Chain.decidable next null (next q) l
      inferInstanceAs (Decidable (p = q ∧ q ≠ null ∧ Chain next null (next q) l))

namespace Chain

variable {A : Type} {next next' : A → A} {null : A}

@[simp] theorem nil_iff {p : A} : Chain next null p [] ↔ p = null := Iff.rfl

@[simp] theorem cons_iff {p q : A} {l : List A} :
    Chain next null p (q :: l) ↔ p = q ∧ q ≠ null ∧ Chain next null (next q) l := Iff.rfl

/-- A chain only depends on the links of its own cells. -/
theorem congr {p : A} {l : List A} (h : Chain next null p l)
    (hsame : ∀ q ∈ l, next' q = next q) : Chain next' null p l := by
  induction l generalizing p with
  | nil => exact h
  | cons q l ih =>
      obtain ⟨hp, hq, hl⟩ := h
      refine ⟨hp, hq, ?_⟩
      rw [hsame q (by simp)]
      exact ih hl fun r hr => hsame r (List.mem_cons_of_mem q hr)

/-- The cells of a chain are determined by where it starts. -/
theorem unique {p : A} {l l' : List A} (h : Chain next null p l) (h' : Chain next null p l') :
    l = l' := by
  induction l generalizing p l' with
  | nil =>
      cases l' with
      | nil => rfl
      | cons q l' => exact absurd (h'.1 ▸ h) h'.2.1
  | cons q l ih =>
      cases l' with
      | nil => exact absurd (h.1 ▸ h') h.2.1
      | cons q' l' =>
          have hhead : q = q' := h.1.symm.trans h'.1
          subst hhead
          rw [ih h.2.2 h'.2.2]

theorem null_not_mem {p : A} {l : List A} (h : Chain next null p l) : null ∉ l := by
  induction l generalizing p with
  | nil => simp
  | cons q l ih =>
      intro hmem
      rcases List.mem_cons.1 hmem with rfl | hmem
      · exact h.2.1 rfl
      · exact ih h.2.2 hmem

/-- The part of a chain from one of its cells on is the chain from that cell. -/
theorem of_mem {p q : A} {l : List A} (h : Chain next null p l) (hq : q ∈ l) :
    ∃ l₁ l₂, l = l₁ ++ q :: l₂ ∧ Chain next null q (q :: l₂) := by
  induction l generalizing p with
  | nil => simp at hq
  | cons r l ih =>
      rcases List.mem_cons.1 hq with rfl | hq
      · exact ⟨[], l, rfl, rfl, h.2⟩
      · obtain ⟨l₁, l₂, rfl, hchain⟩ := ih h.2.2 hq
        exact ⟨r :: l₁, l₂, rfl, hchain⟩

/-- A terminated chain never visits a cell twice. -/
theorem nodup {p : A} {l : List A} (h : Chain next null p l) : l.Nodup := by
  induction l generalizing p with
  | nil => exact List.nodup_nil
  | cons q l ih =>
      refine List.nodup_cons.2 ⟨?_, ih h.2.2⟩
      intro hmem
      -- The chain from the second visit of `q` would be both `q :: l` and a proper part of `l`.
      obtain ⟨l₁, l₂, hl, hchain⟩ := h.2.2.of_mem hmem
      have hlen : q :: l = q :: l₂ := unique ⟨rfl, h.2⟩ hchain
      have := congrArg List.length hlen
      simp [hl] at this
      omega

end Chain

/-! ### Inserting a cell -/

section

variable {A B : Type} [DecidableEq A] {b x p null : A} {l : List A} {next n : A → A}

/-- The cells with `x` right behind `b`. -/
def insertAfter (b x : A) : List A → List A
  | [] => []
  | q :: l => if q = b then q :: x :: l else q :: insertAfter b x l

theorem insertAfter_of_not_mem (hb : b ∉ l) : insertAfter b x l = l := by
  induction l with
  | nil => rfl
  | cons q l ih =>
      obtain ⟨hq, hl⟩ := not_or.1 (mt List.mem_cons.2 hb)
      rw [insertAfter, if_neg (Ne.symm hq), ih hl]

theorem insertAfter_perm (hb : b ∈ l) : (insertAfter b x l).Perm (x :: l) := by
  induction l with
  | nil => simp at hb
  | cons q l ih =>
      rw [insertAfter]
      split
      · exact List.Perm.swap x q l
      · case isFalse hq =>
          have hmem : b ∈ l := (List.mem_cons.1 hb).resolve_left (Ne.symm hq)
          exact ((ih hmem).cons q).trans (List.Perm.swap x q l)

/-- Linking `x` behind `b` inserts it into the chain. -/
theorem Chain.link (h : Chain next null p l) (hnodup : l.Nodup) (hx : x ≠ null)
    (hnew : n x = next b) (hlink : b ∈ l → n b = x) (hsame : ∀ q ∈ l, q ≠ b → n q = next q) :
    Chain n null p (insertAfter b x l) := by
  induction l generalizing p with
  | nil => exact h
  | cons q l ih =>
      obtain ⟨rfl, hp, hl⟩ := h
      obtain ⟨hpl, hnodup'⟩ := List.nodup_cons.1 hnodup
      rw [insertAfter]
      split
      · case isTrue hpb =>
          subst hpb
          refine ⟨rfl, hp, hlink (by simp), hx, ?_⟩
          rw [hnew]
          exact hl.congr fun r hr => hsame r (by simp [hr]) (fun heq => hpl (heq ▸ hr))
      · case isFalse hpb =>
          refine ⟨rfl, hp, ?_⟩
          rw [hsame p (by simp) hpb]
          exact ih hl hnodup' (fun hb => hlink (by simp [hb])) fun r hr hne => hsame r (by simp [hr]) hne

/-- Inserting behind one cell of a family of disjoint chains. -/
theorem flatMap_insertAfter {L : List B} {g : B → List A} (hnodup : (L.flatMap g).Nodup)
    (hb : b ∈ L.flatMap g) :
    (L.flatMap fun i => insertAfter b x (g i)).Perm (x :: L.flatMap g) := by
  induction L with
  | nil => simp at hb
  | cons i L ih =>
      rw [List.flatMap_cons] at hnodup hb
      rw [List.flatMap_cons, List.flatMap_cons]
      obtain ⟨-, hL, hdisj⟩ := List.nodup_append'.1 hnodup
      by_cases hi : b ∈ g i
      · have hnot : b ∉ L.flatMap g := fun hin => hdisj hi hin
        have hrest : (L.flatMap fun i => insertAfter b x (g i)) = L.flatMap g := by
          refine List.flatMap_congr fun j hj => insertAfter_of_not_mem fun hbj => ?_
          exact hnot (List.mem_flatMap.2 ⟨j, hj, hbj⟩)
        rw [hrest]
        exact (insertAfter_perm hi).append_right _
      · rw [insertAfter_of_not_mem hi]
        have hin : b ∈ L.flatMap g := (List.mem_append.1 hb).resolve_left hi
        exact ((ih hL hin).append_left (g i)).trans List.perm_middle

end
