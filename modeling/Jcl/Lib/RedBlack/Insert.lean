/-
Module: Jcl.Lib.RedBlack.Insert
Layer: Library
Purpose: Repairing a red-black tree after a red leaf has been hung into it. `InsFix ctx s T` says that the
  repair, started at the red subtree `s` inside the frames `ctx`, ends with the tree `T`: it moves up two
  levels at a time while parent and uncle are red, and otherwise ends with one or two rotations.
Imports: Jcl.Lib.RedBlack.Tree
Trusted boundary: none (fully proved)
Main exports: InsFix, InsFix.toList, InsFix.blacken_isRedBlack, InsFix.spine_take
-/
import Jcl.Lib.RedBlack.Tree

namespace RedBlack

open RedBlack.RBTree

variable {α : Type}

/-- The repair after an insertion, round by round. -/
inductive InsFix : List (Frame α) → RBTree α → RBTree α → Prop where
  | root (s : RBTree α) : InsFix [] s s
  | done (f : Frame α) (ctx : List (Frame α)) (s : RBTree α) (hf : f.color = .black) :
      InsFix (f :: ctx) s (plug (f :: ctx) s)
  | recolor (f g : Frame α) (ctx : List (Frame α)) (s T : RBTree α) (hf : f.color = .red)
      (hg : g.sib.color = .red)
      (h : InsFix ctx (dnode g.dir .red (dnode f.dir .black s f.key f.sib) g.key g.sib.blacken) T) :
      InsFix (f :: g :: ctx) s T
  | outer (f g : Frame α) (ctx : List (Frame α)) (s : RBTree α) (hf : f.color = .red)
      (hg : g.sib.color = .black) (hdir : f.dir = g.dir) :
      InsFix (f :: g :: ctx) s
        (plug ctx (dnode g.dir .black s f.key (dnode g.dir .red f.sib g.key g.sib)))
  | inner (f g : Frame α) (ctx : List (Frame α)) (c : Color) (a b : RBTree α) (x : α)
      (hf : f.color = .red) (hg : g.sib.color = .black) (hdir : f.dir = g.dir.other) :
      InsFix (f :: g :: ctx) (dnode g.dir c a x b)
        (plug ctx (dnode g.dir .black (dnode g.dir .red f.sib f.key a) x (dnode g.dir .red b g.key g.sib)))

theorem InsFix.toList {ctx : List (Frame α)} {s T : RBTree α} (h : InsFix ctx s T) :
    T.toList = (plug ctx s).toList := by
  induction h with
  | root s => rfl
  | done f ctx s hf => rfl
  | recolor f g ctx s T hf hg h ih =>
      rw [ih]
      simp only [toList_plug, plug_cons, Frame.fill]
      cases g.dir <;> cases f.dir <;> simp [dnode]
  | outer f g ctx s hf hg hdir =>
      simp only [toList_plug, plug_cons, Frame.fill, hdir]
      cases g.dir <;> simp [dnode]
  | inner f g ctx c a b x hf hg hdir =>
      simp only [toList_plug, plug_cons, Frame.fill, hdir]
      cases g.dir <;> simp [dnode, Dir.other]

theorem Balanced.blacken {t : RBTree α} {n : Nat} (h : Balanced t n) : ∃ m, Balanced t.blacken m := by
  cases t with
  | leaf => exact ⟨n, h⟩
  | node c l x r =>
      obtain ⟨m, -, hl, hr⟩ := h
      exact ⟨m + 1, m, rfl, hl, hr⟩

/-- A red subtree counts one more when it is coloured black. -/
theorem Balanced.blacken_red {t : RBTree α} {n : Nat} (h : Balanced t n) (hc : t.color = .red) :
    Balanced t.blacken (n + 1) := by
  cases t with
  | leaf => simp at hc
  | node c l x r =>
      obtain ⟨m, rfl, hl, hr⟩ := h
      rw [color_node] at hc
      subst hc
      exact ⟨m, rfl, hl, hr⟩

theorem NoRedRed.blacken {t : RBTree α} (h : NoRedRed t) : NoRedRed t.blacken := by
  cases t with
  | leaf => trivial
  | node c l x r => exact ⟨by simp, h.2⟩

theorem RootBlack.tail {f : Frame α} {ctx : List (Frame α)} (h : RootBlack (f :: ctx)) :
    RootBlack ctx := by
  cases ctx with
  | nil => trivial
  | cons g ctx => exact h

/-- The parent of a red node is black. -/
theorem Color.black_of_red_child {c : Color} {P : Prop} (h : c = .red → Color.red = .black ∧ P) :
    c = .black := by
  cases c with
  | black => rfl
  | red => exact absurd (h rfl).1 (by simp)

/-- The repair restores the red-black conditions, up to the colour of the root. -/
theorem InsFix.noRedRed_balanced {ctx : List (Frame α)} {s T : RBTree α} {n : Nat}
    (h : InsFix ctx s T) (hred : s.color = .red) (hs : NoRedRed s) (hbal : Balanced s n)
    (hctxBal : CtxBalanced ctx n) (hctx : CtxNoRedRed ctx .black) :
    NoRedRed T ∧ ∃ m, Balanced T m := by
  induction h generalizing n with
  | root s => exact ⟨hs, n, hbal⟩
  | done f ctx s hf =>
      refine ⟨noRedRed_plug.2 ⟨hs, ?_, hctx.2⟩, balanced_plug.2 ⟨n, hbal, hctxBal⟩⟩
      intro hf'
      rw [hf] at hf'
      cases hf'
  | recolor f g ctx s T hf hg h ih =>
      obtain ⟨hfsib, hgsib, hrest⟩ := hctxBal
      obtain ⟨hfc, hfn, hgc, hgn, hctx⟩ := hctx
      rw [hf] at hgc hrest hgsib
      apply ih (n := n + 1)
      · exact color_dnode _ _ _ _ _
      · have hblack : f.sib.color = .black := (hfc hf).2
        simp only [noRedRed_dnode, color_dnode, color_blacken, and_self, implies_true, true_and]
        exact ⟨⟨by simp, hs, hfn⟩, hgn.blacken⟩
      · simp only [balanced_dnode]
        exact ⟨n + 1, rfl, ⟨n, rfl, hbal, hfsib⟩, hgsib.blacken_red hg⟩
      · rw [Color.black_of_red_child hgc] at hrest
        exact hrest
      · exact hctx.of_black
  | outer f g ctx s hf hg hdir =>
      obtain ⟨hfsib, hgsib, hrest⟩ := hctxBal
      obtain ⟨hfc, hfn, hgc, hgn, hctx⟩ := hctx
      rw [hf] at hgc hrest hgsib
      have hgblack := Color.black_of_red_child hgc
      rw [hgblack] at hrest hctx
      constructor
      · rw [noRedRed_plug]
        simp only [noRedRed_dnode, color_dnode]
        exact ⟨⟨by simp, hs, fun _ => ⟨(hfc hf).2, hg⟩, hfn, hgn⟩, hctx⟩
      · rw [balanced_plug]
        simp only [balanced_dnode]
        exact ⟨n + 1, ⟨n, rfl, hbal, n, rfl, hfsib, hgsib⟩, hrest⟩
  | inner f g ctx c a b x hf hg hdir =>
      obtain ⟨hfsib, hgsib, hrest⟩ := hctxBal
      obtain ⟨hfc, hfn, hgc, hgn, hctx⟩ := hctx
      rw [hf] at hgc hrest hgsib
      have hgblack := Color.black_of_red_child hgc
      rw [hgblack] at hrest hctx
      rw [color_dnode] at hred
      subst hred
      obtain ⟨hab, ha, hb⟩ := noRedRed_dnode.1 hs
      obtain ⟨m, rfl, hba, hbb⟩ := balanced_dnode.1 hbal
      constructor
      · rw [noRedRed_plug]
        simp only [noRedRed_dnode, color_dnode]
        exact ⟨⟨by simp, ⟨fun _ => ⟨(hfc hf).2, (hab rfl).1⟩, hfn, ha⟩,
          ⟨fun _ => ⟨(hab rfl).2, hg⟩, hb, hgn⟩⟩, hctx⟩
      · rw [balanced_plug]
        simp only [balanced_dnode]
        exact ⟨n + 1, ⟨n, rfl, ⟨n, rfl, hfsib, hba⟩, ⟨n, rfl, hbb, hgsib⟩⟩, hrest⟩

/-- Colouring the root black completes the repair. -/
theorem InsFix.blacken_isRedBlack {ctx : List (Frame α)} {s T : RBTree α} {n : Nat}
    (h : InsFix ctx s T) (hred : s.color = .red) (hs : NoRedRed s) (hbal : Balanced s n)
    (hctxBal : CtxBalanced ctx n) (hctx : CtxNoRedRed ctx .black) : IsRedBlack T.blacken := by
  obtain ⟨hnrr, m, hm⟩ := h.noRedRed_balanced hred hs hbal hctxBal hctx
  exact ⟨color_blacken T, hnrr.blacken, hm.blacken⟩

/-- The conditions on a node of the tree, from the conditions on the tree. -/
theorem IsRedBlack.focus {ctx : List (Frame α)} {s : RBTree α} (h : IsRedBlack (plug ctx s)) :
    NoRedRed s ∧ CtxNoRedRed ctx s.color ∧ (∃ n, Balanced s n ∧ CtxBalanced ctx n) ∧ RootBlack ctx := by
  obtain ⟨hs, hctx⟩ := noRedRed_plug.1 h.noRedRed
  refine ⟨hs, hctx, balanced_plug.1 h.balanced, ?_⟩
  cases ctx with
  | nil => trivial
  | cons f ctx => exact color_plug_iff.1 h.root

/-- Hanging a red leaf into a gap and repairing. -/
theorem InsFix.isRedBlack {ctx : List (Frame α)} {x : α} {T : RBTree α}
    (h : InsFix ctx (node .red leaf x leaf) T) (hrb : IsRedBlack (plug ctx leaf)) :
    IsRedBlack T.blacken := by
  obtain ⟨-, hctx, ⟨n, hbal, hctxBal⟩, -⟩ := hrb.focus
  obtain rfl : n = 0 := hbal
  have hnew : Balanced (node .red leaf x leaf) 0 := ⟨0, rfl, rfl, rfl⟩
  exact h.blacken_isRedBlack rfl ⟨fun _ => ⟨rfl, rfl⟩, trivial, trivial⟩ hnew hctxBal hctx

/-! ### The outermost nodes -/

/-- The labels on the path that always goes to side `d`, from the lowest up. -/
def spine (d : Dir) : RBTree α → List α
  | leaf => []
  | node _ l x r => (match d with
      | .left => spine d l
      | .right => spine d r) ++ [x]

@[simp] theorem spine_leaf (d : Dir) : spine d (leaf : RBTree α) = [] := rfl

@[simp] theorem spine_dnode (d : Dir) (c : Color) (near far : RBTree α) (x : α) :
    spine d (dnode d c near x far) = spine d near ++ [x] := by cases d <;> rfl

@[simp] theorem spine_blacken (d : Dir) (t : RBTree α) : spine d t.blacken = spine d t := by
  cases t <;> rfl

theorem spine_plug {d : Dir} {ctx : List (Frame α)} (hdir : ∀ f ∈ ctx, f.dir = d) (t : RBTree α) :
    spine d (plug ctx t) = spine d t ++ ctx.map Frame.key := by
  induction ctx generalizing t with
  | nil => simp
  | cons f ctx ih =>
      simp only [List.mem_cons, forall_eq_or_imp] at hdir
      rw [plug_cons, ih hdir.2, Frame.fill, hdir.1, spine_dnode, List.map_cons, List.append_assoc]
      rfl

theorem spine_ne_nil {d : Dir} {t : RBTree α} (h : t ≠ leaf) : spine d t ≠ [] := by
  cases t with
  | leaf => exact absurd rfl h
  | node c l x r => simp [spine]

theorem take_two_append {l m m' : List α} (hl : l ≠ []) (x : α) :
    (l ++ x :: m).take 2 = (l ++ x :: m').take 2 := by
  cases l with
  | nil => exact absurd rfl hl
  | cons y l =>
      cases l with
      | nil => rfl
      | cons z l => rfl

/-- The repair on an outermost path leaves the two lowest nodes of that path where they are. -/
theorem InsFix.spine_take {ctx : List (Frame α)} {s T : RBTree α} {d : Dir} (h : InsFix ctx s T)
    (hdir : ∀ f ∈ ctx, f.dir = d) (hs : s ≠ leaf) :
    (spine d T).take 2 = (spine d (plug ctx s)).take 2 := by
  induction h with
  | root s => rfl
  | done f ctx s hf => rfl
  | recolor f g ctx s T hf hg h ih =>
      simp only [List.mem_cons, forall_eq_or_imp] at hdir
      obtain ⟨hfd, hgd, hctx⟩ := hdir
      rw [ih hctx (by cases g.dir <;> simp [dnode]), spine_plug hctx, plug_cons, plug_cons,
        spine_plug hctx, Frame.fill, Frame.fill, hfd, hgd]
      simp only [spine_dnode]
  | outer f g ctx s hf hg hdir' =>
      simp only [List.mem_cons, forall_eq_or_imp] at hdir
      obtain ⟨hfd, hgd, hctx⟩ := hdir
      rw [plug_cons, plug_cons, spine_plug hctx, spine_plug hctx, Frame.fill, Frame.fill, hfd, hgd]
      simp only [spine_dnode, List.append_assoc, List.singleton_append]
      exact take_two_append (spine_ne_nil hs) f.key
  | inner f g ctx c a b x hf hg hdir' =>
      simp only [List.mem_cons, forall_eq_or_imp] at hdir
      rw [hdir.1, hdir.2.1] at hdir'
      exact absurd hdir'.symm (Dir.other_ne d)

end RedBlack
