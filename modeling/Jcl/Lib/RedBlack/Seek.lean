/-
Module: Jcl.Lib.RedBlack.Seek
Layer: Library
Purpose: Searching a binary tree with a probe: a number for each label that is negative where the search
  goes left, positive where it goes right and zero where it stops. `seek` returns the place where the
  search ends, as a focus inside its frames. On a tree whose labels the probe separates in order, the
  search ends at the label it looks for, or in the gap where that label belongs.
Imports: Jcl.Lib.RedBlack.Tree
Trusted boundary: none (fully proved)
Main exports: seek, plug_seek, Directed, Separates, separates_sides, seek_found, seek_gap
-/
import Jcl.Lib.RedBlack.Tree
import Mathlib.Tactic.ByContra

namespace RedBlack

open RedBlack.RBTree

variable {α : Type}

/-- Where the search with probe `g` ends, starting at the focus. -/
def seek (g : α → Int) : List (Frame α) → RBTree α → List (Frame α) × RBTree α
  | ctx, leaf => (ctx, leaf)
  | ctx, node c l x r =>
      if g x = 0 then (ctx, node c l x r)
      else if g x < 0 then seek g (⟨.left, c, x, r⟩ :: ctx) l
      else seek g (⟨.right, c, x, l⟩ :: ctx) r

variable {g : α → Int} {ctx : List (Frame α)} {t : RBTree α} {x : α}

theorem plug_seek : plug (seek g ctx t).1 (seek g ctx t).2 = plug ctx t := by
  induction t generalizing ctx with
  | leaf => rfl
  | node c l x r ihl ihr =>
      unfold seek
      split
      · rfl
      · split
        · exact ihl
        · exact ihr

/-- The search ends at a gap or at a label with probe zero. -/
theorem seek_end : (seek g ctx t).2 = leaf ∨ ∃ c l x r, (seek g ctx t).2 = node c l x r ∧ g x = 0 := by
  induction t generalizing ctx with
  | leaf => exact Or.inl rfl
  | node c l x r ihl ihr =>
      unfold seek
      split
      · case isTrue h => exact Or.inr ⟨c, l, x, r, rfl, h⟩
      · split
        · exact ihl
        · exact ihr

/-- The frames of a search record which way the probe pointed. -/
def Directed (g : α → Int) (ctx : List (Frame α)) : Prop :=
  ∀ f ∈ ctx, (f.dir = .left → g f.key < 0) ∧ (f.dir = .right → 0 < g f.key)

theorem seek_directed (h : Directed g ctx) : Directed g (seek g ctx t).1 := by
  induction t generalizing ctx with
  | leaf => exact h
  | node c l x r ihl ihr =>
      unfold seek
      split
      · exact h
      · split
        · case isTrue hneg =>
            apply ihl
            intro f hf
            rcases List.mem_cons.1 hf with rfl | hf
            · exact ⟨fun _ => hneg, by simp⟩
            · exact h f hf
        · case isFalse hzero hneg =>
            have hpos : 0 < g x := by omega
            apply ihr
            intro f hf
            rcases List.mem_cons.1 hf with rfl | hf
            · exact ⟨by simp, fun _ => hpos⟩
            · exact h f hf

/-- The probe looks for one place among the labels: right of everything positive, left of everything
    negative, and at most one label in between. -/
def Separates (g : α → Int) (l : List α) : Prop := l.Pairwise fun x y => g x ≤ 0 → g y < 0

/-- Everything before the end of a search is positive and everything after it negative. -/
theorem separates_sides {ctx : List (Frame α)} {t : RBTree α} (hdir : Directed g ctx)
    (hsep : Separates g (plug ctx t).toList) :
    (∀ x ∈ before ctx, 0 < g x) ∧ ∀ x ∈ after ctx, g x < 0 := by
  induction ctx generalizing t with
  | nil => exact ⟨by simp [before], by simp [after]⟩
  | cons f ctx ih =>
      have hrest : Directed g ctx := fun f' hf' => hdir f' (List.mem_cons_of_mem f hf')
      obtain ⟨hbefore, hafter⟩ := ih hrest hsep
      obtain ⟨hleft, hright⟩ := hdir f (by simp)
      rw [plug_cons, toList_plug] at hsep
      have hfill : Separates g (f.fill t).toList :=
        (List.pairwise_append.1 (List.pairwise_append.1 hsep).1).2.1
      cases hd : f.dir with
      | left =>
          have hkey := hleft hd
          simp only [Frame.fill, dnode, hd, toList_node] at hfill
          have hsib := (List.pairwise_cons.1 (List.pairwise_append.1 hfill).2.1).1
          refine ⟨by simpa [before, hd] using hbefore, ?_⟩
          intro x hx
          simp only [after, hd, List.mem_append, List.mem_cons] at hx
          rcases hx with (rfl | hx) | hx
          · exact hkey
          · exact hsib x hx (Int.le_of_lt hkey)
          · exact hafter x hx
      | right =>
          have hkey := hright hd
          simp only [Frame.fill, dnode, hd, toList_node] at hfill
          have hsib := (List.pairwise_append.1 hfill).2.2
          refine ⟨?_, by simpa [after, hd] using hafter⟩
          intro x hx
          simp only [before, hd, List.mem_append, List.mem_singleton] at hx
          rcases hx with hx | hx | rfl
          · exact hbefore x hx
          · by_contra hneg
            exact absurd (hsib x hx f.key (by simp) (Int.not_lt.1 hneg)) (Int.not_lt.2 (Int.le_of_lt hkey))
          · exact hkey

theorem directed_nil : Directed g [] := by
  intro f hf
  cases hf

/-- A search passes through frames that agree with the probe. -/
theorem seek_plug (h : Directed g ctx) : seek g [] (plug ctx t) = seek g ctx t := by
  induction ctx generalizing t with
  | nil => rfl
  | cons f ctx ih =>
      obtain ⟨dir, c, k, sib⟩ := f
      obtain ⟨hleft, hright⟩ := h ⟨dir, c, k, sib⟩ (by simp)
      rw [plug_cons, ih fun f' hf' => h f' (List.mem_cons_of_mem _ hf')]
      cases dir with
      | left =>
          have hneg : g k < 0 := hleft rfl
          simp only [Frame.fill, dnode, seek]
          rw [if_neg (by omega), if_pos hneg]
      | right =>
          have hpos : 0 < g k := hright rfl
          simp only [Frame.fill, dnode, seek]
          rw [if_neg (by omega), if_neg (by omega)]

/-- The key of a frame is on the side of the focus that the frame leaves. -/
theorem mem_after_of_left {f : Frame α} (hf : f ∈ ctx) (hd : f.dir = .left) : f.key ∈ after ctx := by
  induction ctx with
  | nil => simp at hf
  | cons e ctx ih =>
      rcases List.mem_cons.1 hf with rfl | hf
      · simp [after, hd]
      · exact List.mem_append_right _ (ih hf)

theorem mem_before_of_right {f : Frame α} (hf : f ∈ ctx) (hd : f.dir = .right) : f.key ∈ before ctx := by
  induction ctx with
  | nil => simp at hf
  | cons e ctx ih =>
      rcases List.mem_cons.1 hf with rfl | hf
      · simp [before, hd]
      · exact List.mem_append_left _ (ih hf)

/-- A label with probe zero is where the search from the root ends. -/
theorem seek_found (hsep : Separates g t.toList) (hx : x ∈ t.toList) (hzero : g x = 0) :
    ∃ c l r, (seek g [] t).2 = node c l x r := by
  have hplug : plug (seek g [] t).1 (seek g [] t).2 = t := plug_seek
  have hsides := separates_sides (t := (seek g [] t).2) (seek_directed directed_nil) (by rwa [hplug])
  have hmid : x ∈ (seek g [] t).2.toList := by
    rw [← hplug, toList_plug, List.mem_append, List.mem_append] at hx
    rcases hx with (hx | hx) | hx
    · have := hsides.1 x hx
      omega
    · exact hx
    · have := hsides.2 x hx
      omega
  rcases @seek_end _ g [] t with hleaf | ⟨c, l, y, r, hnode, hy⟩
  · rw [hleaf] at hmid
    simp at hmid
  · have hsub : Separates g (node c l y r).toList := by
      rw [← hplug, toList_plug, hnode] at hsep
      exact (List.pairwise_append.1 (List.pairwise_append.1 hsep).1).2.1
    rw [hnode, toList_node, List.mem_append, List.mem_cons] at hmid
    rw [toList_node] at hsub
    obtain ⟨-, hright, hcross⟩ := List.pairwise_append.1 hsub
    rcases hmid with hl | rfl | hr
    · have := hcross x hl y (by simp) (by omega)
      omega
    · exact ⟨c, l, r, hnode⟩
    · have := (List.pairwise_cons.1 hright).1 x hr (by omega)
      omega

/-- Without such a label the search ends in the gap. -/
theorem seek_gap (hnone : ∀ x ∈ t.toList, g x ≠ 0) : (seek g [] t).2 = leaf := by
  rcases @seek_end _ g [] t with hleaf | ⟨c, l, y, r, hnode, hy⟩
  · exact hleaf
  · have hplug : plug (seek g [] t).1 (seek g [] t).2 = t := plug_seek
    have hin : y ∈ t.toList := by
      rw [← hplug, mem_plug, hnode]
      exact Or.inl (by simp)
    exact absurd hy (hnone y hin)

end RedBlack
