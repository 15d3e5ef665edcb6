/-
Module: Jcl.Lib.RedBlack.Edge
Layer: Library
Purpose: How the first and the last label of a tree change when a gap is filled or a label is removed.
Imports: Jcl.Lib.RedBlack.Insert
Trusted boundary: none (fully proved)
Main exports: edge_congr, edge_plug_of_dirs, edge_plug_of_exists, dirs_of_edge, IsRedBlack.far_of_near_leaf,
  InsFix.edge_of_dirs, InsFix.edge_of_exists, edge_remove, toList_of_edges
-/
import Jcl.Lib.RedBlack.Insert

namespace RedBlack

open RedBlack.RBTree

variable {α : Type} {d : Dir} {c : Color} {f : Frame α} {ctx : List (Frame α)}
  {s t T near far : RBTree α} {x y : α}

/-- The outermost label is the lowest one of the outermost path. -/
theorem edge_eq_head_spine (d : Dir) (t : RBTree α) : edge d t = (spine d t).head? := by
  induction t with
  | leaf => rfl
  | node c l x r ihl ihr =>
      cases d with
      | left =>
          rw [edge, spine, List.head?_append, ihl]
          rfl
      | right =>
          rw [edge, spine, List.head?_append, ihr]
          rfl

/-- The outermost labels depend on the labels only. -/
theorem edge_congr (h : s.toList = t.toList) (d : Dir) : edge d s = edge d t := by
  cases d with
  | left => rw [edge_left, edge_left, h]
  | right => rw [edge_right, edge_right, h]

theorem edge_mem (h : edge d t = some x) : x ∈ t.toList := by
  cases d with
  | left =>
      rw [edge_left] at h
      exact List.mem_of_head? h
  | right =>
      rw [edge_right] at h
      exact List.mem_of_getLast? h

/-- Below frames that all go to side `d`, the outermost label is the one of the focus. -/
theorem edge_plug_of_dirs (hdir : ∀ f ∈ ctx, f.dir = d) (hs : s ≠ leaf) :
    edge d (plug ctx s) = edge d s := by
  rw [edge_eq_head_spine, edge_eq_head_spine, spine_plug hdir, List.head?_append_of_ne_nil]
  exact spine_ne_nil hs

/-- The outermost label beside a gap is the parent's. -/
theorem edge_plug_leaf (hdir : ∀ g ∈ f :: ctx, g.dir = d) : edge d (plug (f :: ctx) leaf) = some f.key := by
  rw [edge_eq_head_spine, spine_plug hdir]
  rfl

/-- Where a frame goes to the other side, the outermost label does not depend on the focus. -/
theorem edge_plug_of_exists (h : ∃ f ∈ ctx, f.dir ≠ d) (s t : RBTree α) :
    edge d (plug ctx s) = edge d (plug ctx t) := by
  induction ctx generalizing s t with
  | nil => simp at h
  | cons f ctx ih =>
      by_cases hctx : ∃ g ∈ ctx, g.dir ≠ d
      · exact ih hctx (f.fill s) (f.fill t)
      · have hdirs : ∀ g ∈ ctx, g.dir = d := by
          simpa only [not_exists, not_and, not_not] using hctx
        obtain ⟨g, hg, hne⟩ := h
        have hf : f.dir = d.other := by
          rcases List.mem_cons.1 hg with rfl | hg
          · cases hd : g.dir <;> cases d <;> simp_all [Dir.other]
          · exact absurd (hdirs g hg) hne
        have hfill : ∀ u : RBTree α, spine d (f.fill u) = spine d f.sib ++ [f.key] := by
          intro u
          rw [Frame.fill, hf, dnode_other, spine_dnode]
        rw [plug_cons, plug_cons, edge_eq_head_spine, edge_eq_head_spine, spine_plug hdirs,
          spine_plug hdirs, hfill, hfill]

/-- If the outermost label is in the focus, then all frames go to its side. -/
theorem dirs_of_edge (hnodup : (plug ctx s).toList.Nodup) (hedge : edge d (plug ctx s) = some x)
    (hx : x ∈ s.toList) : ∀ f ∈ ctx, f.dir = d := by
  by_contra hnot
  have hex : ∃ f ∈ ctx, f.dir ≠ d := by
    simpa only [not_forall, exists_prop] using hnot
  rw [edge_plug_of_exists hex s leaf] at hedge
  have hout : x ∈ labels ctx := by simpa [mem_plug] using edge_mem hedge
  exact (nodup_plug.1 hnodup).2.2 hx hout

/-- The outermost node has no child on its side. -/
theorem near_leaf_of_edge (hnodup : (dnode d c near x far).toList.Nodup)
    (hedge : edge d (dnode d c near x far) = some x) : near = leaf := by
  by_contra hne
  rw [edge_dnode] at hedge
  cases hn : edge d near with
  | none => exact hne (edge_eq_none.1 hn)
  | some y =>
      rw [hn] at hedge
      obtain rfl : y = x := by simpa using hedge
      exact (nodup_dnode.1 hnodup).1 (edge_mem hn)

/-- A node without a child on one side has at most a red leaf on the other. -/
theorem IsRedBlack.far_of_near_leaf (h : IsRedBlack (plug ctx (dnode d c leaf x far))) :
    far = leaf ∨ ∃ y, far = node .red leaf y leaf := by
  obtain ⟨hs, -, ⟨n, hbal, -⟩, -⟩ := h.focus
  obtain ⟨m, -, hm, hfar⟩ := balanced_dnode.1 hbal
  obtain rfl : m = 0 := hm
  obtain ⟨-, -, hfarn⟩ := noRedRed_dnode.1 hs
  cases far with
  | leaf => exact Or.inl rfl
  | node c' l y r =>
      obtain ⟨k, hk, hl, hr⟩ := hfar
      cases c' with
      | black => simp [Color.weight] at hk
      | red =>
          obtain rfl : k = 0 := by simpa [Color.weight] using hk.symm
          obtain ⟨hlb, hrb⟩ := hfarn.1 rfl
          have hleaf : ∀ u : RBTree α, u.color = .black → Balanced u 0 → u = leaf := by
            intro u hu hb
            cases u with
            | leaf => rfl
            | node cu lu v ru =>
                obtain ⟨j, hj, -⟩ := hb
                rw [color_node] at hu
                rw [hu] at hj
                simp [Color.weight] at hj
          exact Or.inr ⟨y, by rw [hleaf l hlb hl, hleaf r hrb hr]⟩

/-- A label put into a gap becomes the outermost one if all frames go to that side, and leaves it alone
    otherwise. -/
theorem InsFix.edge_of_dirs (h : InsFix ctx (node .red leaf x leaf) T) (hdir : ∀ f ∈ ctx, f.dir = d) :
    edge d T = some x := by
  rw [edge_congr h.toList, edge_plug_of_dirs hdir (by simp)]
  cases d <;> rfl

theorem InsFix.edge_of_exists (h : InsFix ctx (node .red leaf x leaf) T) (hex : ∃ f ∈ ctx, f.dir ≠ d) :
    edge d T = edge d (plug ctx leaf) := by
  rw [edge_congr h.toList, edge_plug_of_exists hex]

/-- The parent keeps the new outermost node as its child through the repair. -/
theorem InsFix.spine_of_dirs (h : InsFix (f :: ctx) (node .red leaf x leaf) T)
    (hdir : ∀ g ∈ f :: ctx, g.dir = d) : ∃ rest, spine d T = x :: f.key :: rest := by
  have htake := h.spine_take hdir (by simp)
  have hs : spine d (node .red leaf x leaf) = [x] := by cases d <;> rfl
  rw [spine_plug hdir, hs] at htake
  rw [← List.take_append_drop 2 (spine d T), htake]
  exact ⟨_, rfl⟩

/-- Removing a label other than the outermost one leaves that one alone. -/
theorem edge_remove {l m : List α} (hs : s.toList = l ++ x :: m) (ht : t.toList = l ++ m)
    (hne : edge d s ≠ some x) : edge d t = edge d s := by
  cases d with
  | left =>
      rw [edge_left, hs] at hne
      rw [edge_left, edge_left, hs, ht]
      cases l with
      | nil => simp at hne
      | cons y l => rfl
  | right =>
      rw [edge_right, hs] at hne
      rw [edge_right, edge_right, hs, ht]
      cases m.eq_nil_or_concat with
      | inl hm => simp [hm] at hne
      | inr hm =>
          obtain ⟨m, y, rfl⟩ := hm
          simp [List.getLast?_append, List.getLast?_cons]

/-- One label that is both first and last is the only one. -/
theorem toList_of_edges (hnodup : t.toList.Nodup) (hleft : edge .left t = some x)
    (hright : edge .right t = some x) : t.toList = [x] := by
  rw [edge_left] at hleft
  rw [edge_right] at hright
  cases hl : t.toList with
  | nil => simp [hl] at hleft
  | cons y l =>
      rw [hl] at hleft hright hnodup
      obtain rfl : y = x := by simpa using hleft
      cases l with
      | nil => rfl
      | cons z l =>
          rw [List.getLast?_cons_cons] at hright
          exact absurd (List.mem_of_getLast? hright) (List.nodup_cons.1 hnodup).1

end RedBlack
