/-
Module: Jcl.Lib.RedBlack.Delete
Layer: Library
Purpose: Repairing a red-black tree after a black node has been taken out of it. `DelFix ctx s T` says that
  the repair, started at the subtree `s` that is one black node short inside the frames `ctx`, ends with
  the tree `T`. A red sibling is rotated away first; then the black sibling is coloured red and the repair
  goes on at the parent, or one or two rotations end it.
Imports: Jcl.Lib.RedBlack.Insert
Trusted boundary: none (fully proved)
Main exports: DelFix, DelFix.toList, Deficient, DelFix.isRedBlack
-/
import Jcl.Lib.RedBlack.Insert

namespace RedBlack

open RedBlack.RBTree

variable {α : Type}

/-- The repair after a deletion, round by round. -/
inductive DelFix : List (Frame α) → RBTree α → RBTree α → Prop where
  | root (s : RBTree α) : DelFix [] s s.blacken
  | red (f : Frame α) (ctx : List (Frame α)) (s : RBTree α) (hs : s.color = .red) :
      DelFix (f :: ctx) s (plug (f :: ctx) s.blacken)
  | redSibling (d : Dir) (c : Color) (k y : α) (near far s T : RBTree α) (ctx : List (Frame α))
      (hs : s.color = .black)
      (h : DelFix (⟨d, .red, k, near⟩ :: ⟨d, .black, y, far⟩ :: ctx) s T) :
      DelFix (⟨d, c, k, dnode d .red near y far⟩ :: ctx) s T
  | recolor (d : Dir) (c : Color) (k y : α) (near far s T : RBTree α) (ctx : List (Frame α))
      (hs : s.color = .black) (hnear : near.color = .black) (hfar : far.color = .black)
      (h : DelFix ctx (dnode d c s k (dnode d .red near y far)) T) :
      DelFix (⟨d, c, k, dnode d .black near y far⟩ :: ctx) s T
  | inner (d : Dir) (c : Color) (k y z : α) (a b far s : RBTree α) (ctx : List (Frame α))
      (hs : s.color = .black) (hfar : far.color = .black) :
      DelFix (⟨d, c, k, dnode d .black (dnode d .red a z b) y far⟩ :: ctx) s
        (plug ctx (dnode d c (dnode d .black s k a) z (dnode d .black b y far))).blacken
  | outer (d : Dir) (c : Color) (k y : α) (near far s : RBTree α) (ctx : List (Frame α))
      (hs : s.color = .black) (hfar : far.color = .red) :
      DelFix (⟨d, c, k, dnode d .black near y far⟩ :: ctx) s
        (plug ctx (dnode d c (dnode d .black s k near) y far.blacken)).blacken

/-- At the root there is only the colour left to set. -/
theorem DelFix.of_root {s T : RBTree α} (h : DelFix [] s T) : T = s.blacken := by
  cases h
  rfl

theorem DelFix.toList {ctx : List (Frame α)} {s T : RBTree α} (h : DelFix ctx s T) :
    T.toList = (plug ctx s).toList := by
  induction h with
  | root s => simp
  | red f ctx s hs => rw [toList_plug, toList_plug, toList_blacken]
  | redSibling d c k y near far s T ctx hs h ih =>
      rw [ih]
      simp only [toList_plug, plug_cons, Frame.fill]
      cases d <;> simp [dnode]
  | recolor d c k y near far s T ctx hs hnear hfar h ih =>
      rw [ih]
      simp only [toList_plug, plug_cons, Frame.fill]
      cases d <;> simp [dnode]
  | inner d c k y z a b far s ctx hs hfar =>
      simp only [toList_blacken, toList_plug, plug_cons, Frame.fill]
      cases d <;> simp [dnode]
  | outer d c k y near far s ctx hs hfar =>
      simp only [toList_blacken, toList_plug, plug_cons, Frame.fill]
      cases d <;> simp [dnode]

theorem blacken_of_black {t : RBTree α} (h : t.color = .black) : t.blacken = t := by
  cases t with
  | leaf => rfl
  | node c l x r =>
      rw [color_node] at h
      rw [h]
      rfl

/-- The red-black conditions around a focus that is one black node short; the focus itself may be red. -/
structure Deficient (ctx : List (Frame α)) (s : RBTree α) (n : Nat) : Prop where
  noRedRed : NoRedRed s.blacken
  balanced : Balanced s n
  ctxBalanced : CtxBalanced ctx (n + 1)
  ctxNoRedRed : CtxNoRedRed ctx .black
  rootBlack : RootBlack ctx

section

variable {ctx : List (Frame α)} {s T near far a b : RBTree α} {d : Dir} {c : Color} {k y z : α} {n : Nat}

/-- A short focus has a sibling. -/
theorem Deficient.sib_ne_leaf {f : Frame α} (h : Deficient (f :: ctx) s n) : f.sib ≠ leaf := by
  intro hleaf
  have hsib := h.ctxBalanced.1
  rw [hleaf] at hsib
  exact Nat.succ_ne_zero n hsib

/-- Rotating a red sibling away leaves a black sibling and a red parent. -/
theorem Deficient.redSibling (h : Deficient (⟨d, c, k, dnode d .red near y far⟩ :: ctx) s n) :
    near.color = .black ∧ Deficient (⟨d, .red, k, near⟩ :: ⟨d, .black, y, far⟩ :: ctx) s n := by
  obtain ⟨hsib, hrest⟩ := h.ctxBalanced
  obtain ⟨hkc, hsibn, hctx⟩ := h.ctxNoRedRed
  obtain ⟨m, hm, hnear, hfar⟩ := balanced_dnode.1 hsib
  obtain ⟨hchildren, hnearn, hfarn⟩ := noRedRed_dnode.1 hsibn
  obtain rfl : n + 1 = m := hm
  have hblack : c = .black := by
    cases c with
    | black => rfl
    | red => exact absurd (hkc rfl).2 (by simp)
  subst hblack
  refine ⟨(hchildren rfl).1, h.noRedRed, h.balanced, ⟨hnear, hfar, hrest⟩,
    ⟨fun _ => ⟨rfl, (hchildren rfl).1⟩, hnearn, by simp, hfarn, hctx⟩, ?_⟩
  cases ctx with
  | nil => rfl
  | cons g ctx => exact h.rootBlack

/-- Colouring the sibling red moves the missing black node up. -/
theorem Deficient.recolor (h : Deficient (⟨d, c, k, dnode d .black near y far⟩ :: ctx) s n)
    (hs : s.color = .black) (hnear : near.color = .black) (hfar : far.color = .black) :
    Deficient ctx (dnode d c s k (dnode d .red near y far)) (n + c.weight) := by
  obtain ⟨hsib, hrest⟩ := h.ctxBalanced
  obtain ⟨hkc, hsibn, hctx⟩ := h.ctxNoRedRed
  obtain ⟨m, hm, hnearb, hfarb⟩ := balanced_dnode.1 hsib
  obtain ⟨-, hnearn, hfarn⟩ := noRedRed_dnode.1 hsibn
  obtain rfl : n = m := Nat.succ.inj hm
  have hsn := h.noRedRed
  rw [blacken_of_black hs] at hsn
  constructor
  · simp only [blacken_dnode, noRedRed_dnode]
    exact ⟨by simp, hsn, fun _ => ⟨hnear, hfar⟩, hnearn, hfarn⟩
  · exact balanced_dnode.2 ⟨n, rfl, h.balanced, balanced_dnode.2 ⟨n, rfl, hnearb, hfarb⟩⟩
  · rwa [Nat.add_right_comm] at hrest
  · exact hctx.of_black
  · exact h.rootBlack.tail

/-- A rotation that puts the missing black node in place. -/
theorem isRedBlack_of_rotated (hs : NoRedRed s) (hnear : NoRedRed near) (hfar : NoRedRed far)
    (hbal : Balanced s n) (hnearb : Balanced near n) (hfarb : Balanced far (n + 1))
    (hctxBal : CtxBalanced ctx (n + 1 + c.weight)) (hctx : CtxNoRedRed ctx c) (hfarc : far.color = .black) :
    IsRedBlack (plug ctx (dnode d c (dnode d .black s k near) y far)).blacken := by
  have hnrr : NoRedRed (plug ctx (dnode d c (dnode d .black s k near) y far)) := by
    rw [noRedRed_plug]
    simp only [noRedRed_dnode, color_dnode]
    exact ⟨⟨fun _ => ⟨trivial, hfarc⟩, ⟨by simp, hs, hnear⟩, hfar⟩, hctx⟩
  have hbalanced : ∃ m, Balanced (plug ctx (dnode d c (dnode d .black s k near) y far)) m := by
    rw [balanced_plug]
    simp only [balanced_dnode]
    exact ⟨n + 1 + c.weight, ⟨n + 1, rfl, ⟨n, rfl, hbal, hnearb⟩, hfarb⟩, hctxBal⟩
  obtain ⟨j, hj⟩ := hbalanced
  exact ⟨color_blacken _, hnrr.blacken, hj.blacken⟩

end

/-- The repair restores the red-black conditions. -/
theorem DelFix.isRedBlack {ctx : List (Frame α)} {s T : RBTree α} {n : Nat} (h : DelFix ctx s T)
    (hdef : Deficient ctx s n) : IsRedBlack T := by
  induction h generalizing n with
  | root s => exact ⟨color_blacken s, hdef.noRedRed, hdef.balanced.blacken⟩
  | red f ctx s hred =>
      refine ⟨color_plug_iff.2 hdef.rootBlack, noRedRed_plug.2 ⟨hdef.noRedRed, ?_⟩, balanced_plug.2
        ⟨n + 1, hdef.balanced.blacken_red hred, hdef.ctxBalanced⟩⟩
      rw [color_blacken]
      exact hdef.ctxNoRedRed
  | redSibling d c k y near far s T ctx hs h ih => exact ih hdef.redSibling.2
  | recolor d c k y near far s T ctx hs hnear hfar h ih => exact ih (hdef.recolor hs hnear hfar)
  | inner d c k y z a b far s ctx hs hfar =>
      obtain ⟨hsib, hrest⟩ := hdef.ctxBalanced
      obtain ⟨-, hsibn, hctx⟩ := hdef.ctxNoRedRed
      obtain ⟨m, hm, hnearb, hfarb⟩ := balanced_dnode.1 hsib
      obtain ⟨i, hi, ha, hb⟩ := balanced_dnode.1 hnearb
      obtain ⟨-, hnearn, hfarn⟩ := noRedRed_dnode.1 hsibn
      obtain ⟨-, han, hbn⟩ := noRedRed_dnode.1 hnearn
      obtain rfl : n = m := Nat.succ.inj hm
      obtain rfl : n = i := hi
      have hsn := hdef.noRedRed
      rw [blacken_of_black hs] at hsn
      have hright : NoRedRed (dnode d .black b y far) := noRedRed_dnode.2 ⟨by simp, hbn, hfarn⟩
      exact isRedBlack_of_rotated hsn han hright hdef.balanced ha (balanced_dnode.2 ⟨n, rfl, hb, hfarb⟩)
        hrest hctx (by simp)
  | outer d c k y near far s ctx hs hfar =>
      obtain ⟨hsib, hrest⟩ := hdef.ctxBalanced
      obtain ⟨-, hsibn, hctx⟩ := hdef.ctxNoRedRed
      obtain ⟨m, hm, hnearb, hfarb⟩ := balanced_dnode.1 hsib
      obtain ⟨-, hnearn, hfarn⟩ := noRedRed_dnode.1 hsibn
      obtain rfl : n = m := Nat.succ.inj hm
      have hsn := hdef.noRedRed
      rw [blacken_of_black hs] at hsn
      exact isRedBlack_of_rotated hsn hnearn hfarn.blacken hdef.balanced hnearb (hfarb.blacken_red hfar)
        hrest hctx (by simp)

/-! ### Taking a node out -/

/-- Red-black trees do not depend on labels. -/
theorem IsRedBlack.relabel {ctx : List (Frame α)} {c : Color} {l r : RBTree α} {x : α}
    (h : IsRedBlack (plug ctx (node c l x r))) (y : α) : IsRedBlack (plug ctx (node c l y r)) := by
  obtain ⟨hs, hctx, ⟨n, hbal, hctxBal⟩, hroot⟩ := h.focus
  refine ⟨?_, noRedRed_plug.2 ⟨hs, hctx⟩, balanced_plug.2 ⟨n, hbal, hctxBal⟩⟩
  cases ctx with
  | nil => exact h.root
  | cons f ctx => exact color_plug_iff.2 hroot

/-- Taking out a black node with at most one child leaves its place one black node short. -/
theorem IsRedBlack.deficient {ctx : List (Frame α)} {d : Dir} {s : RBTree α} {x : α}
    (h : IsRedBlack (plug ctx (dnode d .black leaf x s))) : ∃ n, Deficient ctx s n := by
  obtain ⟨hs, hctx, ⟨n, hbal, hctxBal⟩, hroot⟩ := h.focus
  obtain ⟨m, rfl, -, hsbal⟩ := balanced_dnode.1 hbal
  obtain ⟨-, -, hsn⟩ := noRedRed_dnode.1 hs
  rw [color_dnode] at hctx
  exact ⟨m, hsn.blacken, hsbal, hctxBal, hctx, hroot⟩

/-- Taking out a red node with at most one child keeps the conditions. -/
theorem IsRedBlack.remove_red {ctx : List (Frame α)} {d : Dir} {s : RBTree α} {x : α}
    (h : IsRedBlack (plug ctx (dnode d .red leaf x s))) : IsRedBlack (plug ctx s) := by
  obtain ⟨hs, hctx, ⟨n, hbal, hctxBal⟩, hroot⟩ := h.focus
  obtain ⟨m, hm, -, hsbal⟩ := balanced_dnode.1 hbal
  obtain ⟨hchildren, -, hsn⟩ := noRedRed_dnode.1 hs
  rw [color_dnode] at hctx
  obtain rfl : n = m := hm
  have hsc := (hchildren rfl).2
  refine ⟨?_, noRedRed_plug.2 ⟨hsn, ?_⟩, balanced_plug.2 ⟨n, hsbal, hctxBal⟩⟩
  · cases ctx with
    | nil => exact hsc
    | cons f ctx => exact color_plug_iff.2 hroot
  · rw [hsc]
    exact hctx.of_black

end RedBlack
