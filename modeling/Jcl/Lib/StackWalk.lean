/-
Module: Jcl.Lib.StackWalk
Layer: Library
Purpose: Exploring a graph with a stack of pending vertices and no marks. A round takes the top of the stack
  and puts the vertices that it leads to in its place. Where every step lowers a rank, the rounds come to an
  end; the vertices taken are those that the stack reaches, in preorder; and in a forest none of them is taken twice.
  Where rounds may fail, what is taken stays right, and what is missed lies below a vertex that failed.
Trusted boundary: none (fully proved)
Main exports: Walks, Reaches, Walks.mem_iff, Walks.eq_flatMap, exists_walks, Forest, Apart, Walks.nodup, Explored
-/
import Mathlib.Logic.Relation
import Mathlib.Data.List.Nodup

namespace StackWalk

variable {V : Type}

/-- From `stack` on, its top first, the rounds take the vertices of `trace` in this order and leave nothing
    pending. -/
inductive Walks (kids : V → List V) : List V → List V → Prop
  | done : Walks kids [] []
  | round {v : V} {stack trace : List V} :
      Walks kids (kids v ++ stack) trace → Walks kids (v :: stack) (v :: trace)

/-- `w` is found by some number of steps from `v`. -/
def Reaches (kids : V → List V) : V → V → Prop := Relation.ReflTransGen fun v w => w ∈ kids v

variable {kids : V → List V} {u v w : V} {stack rest trace : List V}

theorem Reaches.refl : Reaches kids v v := Relation.ReflTransGen.refl

theorem Reaches.step (h : w ∈ kids v) : Reaches kids v w := Relation.ReflTransGen.single h

theorem Reaches.head (hstep : v ∈ kids u) (h : Reaches kids v w) : Reaches kids u w :=
  Relation.ReflTransGen.head hstep h

theorem Reaches.tail (h : Reaches kids u v) (hstep : w ∈ kids v) : Reaches kids u w :=
  Relation.ReflTransGen.tail h hstep

theorem reaches_cases_head : Reaches kids u w ↔ u = w ∨ ∃ v ∈ kids u, Reaches kids v w :=
  Relation.ReflTransGen.cases_head_iff

theorem reaches_cases_tail : Reaches kids u w ↔ w = u ∨ ∃ v, Reaches kids u v ∧ w ∈ kids v :=
  Relation.ReflTransGen.cases_tail_iff _ u w

/-! ### What a walk takes -/

/-- The vertices taken are exactly those that the stack reaches. -/
theorem Walks.mem_iff (h : Walks kids stack trace) :
    w ∈ trace ↔ ∃ v ∈ stack, Reaches kids v w := by
  induction h with
  | done => simp
  | @round v stack trace _ ih =>
      simp only [List.mem_cons, ih, List.mem_append]
      constructor
      · rintro (rfl | ⟨u, hu | hu, hreach⟩)
        · exact ⟨w, Or.inl rfl, Reaches.refl⟩
        · exact ⟨v, Or.inl rfl, Reaches.head hu hreach⟩
        · exact ⟨u, Or.inr hu, hreach⟩
      · rintro ⟨u, rfl | hu, hreach⟩
        · rcases reaches_cases_head.1 hreach with rfl | ⟨k, hk, hreach⟩
          · exact Or.inl rfl
          · exact Or.inr ⟨k, Or.inl hk, hreach⟩
        · exact Or.inr ⟨u, Or.inr hu, hreach⟩

/-- Where `order v` is `v` and then the orders of the vertices that it leads to, the vertices are taken in this
    order. -/
theorem Walks.eq_flatMap {order : V → List V} (horder : ∀ v, order v = v :: (kids v).flatMap order)
    (h : Walks kids stack trace) : trace = stack.flatMap order := by
  induction h with
  | done => rfl
  | round _ ih => rw [ih, List.flatMap_append, List.flatMap_cons, horder, List.cons_append]

/-! ### That it ends -/

theorem Walks.append {trace' : List V} (h : Walks kids stack trace) (h' : Walks kids rest trace') :
    Walks kids (stack ++ rest) (trace ++ trace') := by
  induction h with
  | done => exact h'
  | round _ ih =>
      rw [List.append_assoc] at ih
      exact Walks.round ih

theorem exists_walks_of_forall (h : ∀ v ∈ stack, ∃ trace, Walks kids [v] trace) :
    ∃ trace, Walks kids stack trace := by
  induction stack with
  | nil => exact ⟨[], Walks.done⟩
  | cons v stack ih =>
      obtain ⟨trace, hhead⟩ := h v (by simp)
      obtain ⟨trace', htail⟩ := ih fun u hu => h u (List.mem_cons_of_mem v hu)
      exact ⟨trace ++ trace', hhead.append htail⟩

/-- Where every step lowers a rank, every stack is walked to the end. -/
theorem exists_walks {rank : V → Nat} (hrank : ∀ v, ∀ w ∈ kids v, rank w < rank v) (stack : List V) :
    ∃ trace, Walks kids stack trace := by
  have hone : ∀ n v, rank v < n → ∃ trace, Walks kids [v] trace := by
    intro n
    induction n with
    | zero => exact fun v hv => absurd hv (Nat.not_lt_zero _)
    | succ n ih =>
        intro v hv
        have hkids : ∀ w ∈ kids v, ∃ trace, Walks kids [w] trace := by
          intro w hw
          have hlt := hrank v w hw
          exact ih w (by omega)
        obtain ⟨trace, hwalk⟩ := exists_walks_of_forall hkids
        rw [← List.append_nil (kids v)] at hwalk
        exact ⟨v :: trace, Walks.round hwalk⟩
  exact exists_walks_of_forall fun v _ => hone (rank v + 1) v (Nat.lt_succ_self _)

/-! ### That it takes nothing twice -/

/-- Every step lowers the rank, and a vertex is led to from one vertex and by one step. -/
structure Forest (kids : V → List V) (rank : V → Nat) : Prop where
  rank_lt : ∀ v, ∀ w ∈ kids v, rank w < rank v
  nodup : ∀ v, (kids v).Nodup
  parent : ∀ u v w, w ∈ kids u → w ∈ kids v → u = v

/-- None of these vertices reaches another. -/
def Apart (kids : V → List V) (stack : List V) : Prop :=
  stack.Pairwise fun v w => ¬ Reaches kids v w ∧ ¬ Reaches kids w v

variable {rank : V → Nat}

theorem Forest.rank_le (hforest : Forest kids rank) (h : Reaches kids v w) : rank w ≤ rank v := by
  induction h with
  | refl => exact Nat.le_refl _
  | tail _ hstep ih => exact Nat.le_trans (Nat.le_of_lt (hforest.rank_lt _ _ hstep)) ih

/-- A vertex is not reached from its own kids. -/
theorem Forest.not_reaches_parent (hforest : Forest kids rank) (hstep : w ∈ kids v) :
    ¬ Reaches kids w v := by
  intro h
  have hle := hforest.rank_le h
  have hlt := hforest.rank_lt v w hstep
  omega

/-- Whatever reaches a kid and is another vertex reaches the parent. -/
theorem Forest.reaches_parent (hforest : Forest kids rank) (hstep : w ∈ kids v) (h : Reaches kids u w)
    (hne : u ≠ w) : Reaches kids u v := by
  rcases reaches_cases_tail.1 h with rfl | ⟨p, hreach, hp⟩
  · exact absurd rfl hne
  · rw [hforest.parent v p w hstep hp]
    exact hreach

/-- Two kids of one vertex do not reach each other. -/
theorem Forest.not_reaches_sibling (hforest : Forest kids rank) (hu : u ∈ kids v) (hw : w ∈ kids v)
    (hne : u ≠ w) : ¬ Reaches kids u w := fun h =>
  hforest.not_reaches_parent hu (hforest.reaches_parent hw h hne)

/-- A round keeps the pending vertices apart. -/
theorem Apart.round (hforest : Forest kids rank) (h : Apart kids (v :: stack)) :
    Apart kids (kids v ++ stack) := by
  obtain ⟨hhead, htail⟩ := List.pairwise_cons.1 h
  refine List.pairwise_append.2 ⟨?_, htail, ?_⟩
  · refine (hforest.nodup v).imp_of_mem fun {a b} ha hb hne => ?_
    exact ⟨hforest.not_reaches_sibling ha hb hne, hforest.not_reaches_sibling hb ha hne.symm⟩
  · intro k hk s hs
    obtain ⟨hto, hfrom⟩ := hhead s hs
    refine ⟨fun hreach => hto (Reaches.head hk hreach), fun hreach => ?_⟩
    by_cases heq : s = k
    · subst heq
      exact hto (Reaches.step hk)
    · exact hfrom (hforest.reaches_parent hk hreach heq)

/-- In a forest, a walk from vertices that are apart takes none of them twice. -/
theorem Walks.nodup (hforest : Forest kids rank) (h : Walks kids stack trace) (hapart : Apart kids stack) :
    trace.Nodup := by
  induction h with
  | done => exact List.nodup_nil
  | @round v stack trace hwalk ih =>
      refine List.nodup_cons.2 ⟨fun hmem => ?_, ih (hapart.round hforest)⟩
      obtain ⟨u, hu, hreach⟩ := hwalk.mem_iff.1 hmem
      rcases List.mem_append.1 hu with hkid | hpending
      · exact hforest.not_reaches_parent hkid hreach
      · exact ((List.pairwise_cons.1 hapart).1 u hpending).2 hreach

theorem apart_singleton : Apart kids [v] := List.pairwise_singleton _ v

/-! ### Where rounds fail -/

/-- What is known of an exploration from `root` of which some rounds failed: no vertex is taken twice, or taken and
    still reached from a pending one, and every vertex is taken or reached from one that is pending or `lost`. -/
structure Explored (kids : V → List V) (root : V) (stack taken lost : List V) : Prop where
  apart : Apart kids stack
  fresh : ∀ v ∈ stack, ∀ w ∈ taken, ¬ Reaches kids v w
  nodup : taken.Nodup
  pending : ∀ v ∈ stack, Reaches kids root v
  reached : ∀ v ∈ taken, Reaches kids root v
  cover : ∀ w, Reaches kids root w → w ∈ taken ∨ ∃ v, (v ∈ stack ∨ v ∈ lost) ∧ Reaches kids v w

namespace Explored

variable {root : V} {taken lost left : List V}

theorem start : Explored kids root [root] [] [] where
  apart := apart_singleton
  fresh := fun _ _ _ hw => absurd hw List.not_mem_nil
  nodup := List.nodup_nil
  pending := fun _ hv => List.mem_singleton.1 hv ▸ Reaches.refl
  reached := fun _ hv => absurd hv List.not_mem_nil
  cover := fun _ hw => .inr ⟨root, .inl List.mem_cons_self, hw⟩

/-- A round that takes the top. -/
theorem take (hforest : Forest kids rank) (h : Explored kids root (v :: stack) taken lost) :
    Explored kids root (kids v ++ stack) (taken ++ [v]) lost where
  apart := h.apart.round hforest
  fresh := by
    intro u hu w hw hreach
    rcases List.mem_append.1 hu with hkid | hrest
    · rcases List.mem_append.1 hw with hold | hnew
      · exact h.fresh v List.mem_cons_self w hold (Reaches.head hkid hreach)
      · exact hforest.not_reaches_parent hkid (List.mem_singleton.1 hnew ▸ hreach)
    · rcases List.mem_append.1 hw with hold | hnew
      · exact h.fresh u (List.mem_cons_of_mem v hrest) w hold hreach
      · exact ((List.pairwise_cons.1 h.apart).1 u hrest).2 (List.mem_singleton.1 hnew ▸ hreach)
  nodup := by
    refine List.nodup_append.2 ⟨h.nodup, List.nodup_singleton v, ?_⟩
    rintro w hw u hu rfl
    exact h.fresh v List.mem_cons_self w hw (List.mem_singleton.1 hu ▸ Reaches.refl)
  pending := by
    intro u hu
    rcases List.mem_append.1 hu with hkid | hrest
    · exact (h.pending v List.mem_cons_self).tail hkid
    · exact h.pending u (List.mem_cons_of_mem v hrest)
  reached := by
    intro w hw
    rcases List.mem_append.1 hw with hold | hnew
    · exact h.reached w hold
    · exact List.mem_singleton.1 hnew ▸ h.pending v List.mem_cons_self
  cover := by
    intro w hw
    rcases h.cover w hw with htaken | ⟨u, hu, hreach⟩
    · exact .inl (List.mem_append_left _ htaken)
    · rcases hu with hstack | hlost
      · rcases List.mem_cons.1 hstack with rfl | hrest
        · rcases reaches_cases_head.1 hreach with rfl | ⟨k, hk, hreach⟩
          · exact .inl (List.mem_append_right _ List.mem_cons_self)
          · exact .inr ⟨k, .inl (List.mem_append_left _ hk), hreach⟩
        · exact .inr ⟨u, .inl (List.mem_append_right _ hrest), hreach⟩
      · exact .inr ⟨u, .inr hlost, hreach⟩

/-- A round that fails and leaves the top where it is. -/
theorem fail (h : Explored kids root (v :: stack) taken lost) :
    Explored kids root (v :: stack) taken (lost ++ [v]) :=
  { h with
    cover := by
      intro w hw
      rcases h.cover w hw with htaken | ⟨u, hu, hreach⟩
      · exact .inl htaken
      · exact .inr ⟨u, hu.imp_right (List.mem_append_left [v]), hreach⟩ }

/-- A round that fails and loses the top, and some of the vertices that it leads to. -/
theorem lose (hforest : Forest kids rank) (h : Explored kids root (v :: stack) taken lost)
    (hleft : left.Sublist (kids v)) : Explored kids root (left ++ stack) taken (lost ++ [v]) where
  apart := (h.apart.round hforest).sublist (hleft.append_right stack)
  fresh := by
    intro u hu w hw hreach
    rcases List.mem_append.1 hu with hkid | hrest
    · exact h.fresh v List.mem_cons_self w hw (Reaches.head (hleft.subset hkid) hreach)
    · exact h.fresh u (List.mem_cons_of_mem v hrest) w hw hreach
  nodup := h.nodup
  pending := by
    intro u hu
    rcases List.mem_append.1 hu with hkid | hrest
    · exact (h.pending v List.mem_cons_self).tail (hleft.subset hkid)
    · exact h.pending u (List.mem_cons_of_mem v hrest)
  reached := h.reached
  cover := by
    intro w hw
    rcases h.cover w hw with htaken | ⟨u, hu, hreach⟩
    · exact .inl htaken
    · right
      rcases hu with hstack | hlost
      · rcases List.mem_cons.1 hstack with rfl | hrest
        · exact ⟨u, .inr (List.mem_append_right _ List.mem_cons_self), hreach⟩
        · exact ⟨u, .inl (List.mem_append_right _ hrest), hreach⟩
      · exact ⟨u, .inr (List.mem_append_left _ hlost), hreach⟩

end Explored

end StackWalk
