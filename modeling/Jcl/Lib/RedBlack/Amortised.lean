/-
Module: Jcl.Lib.RedBlack.Amortised
Layer: Library
Purpose: How many nodes the repairs paint, on average. A single repair may paint a whole path, but each round that goes
  on up the tree uses up a black node with two children of one colour, and every repair makes only a few of these. The
  `potential` counts them: over any sequence of insertions and deletions the nodes painted are a constant for each.
Imports: Jcl.Lib.RedBlack.Rewiring
Trusted boundary: none (fully proved)
Main exports: Painted, Repaints, charge, potential, InsFix.repaints_hang, Removal.repaints
-/
import Jcl.Lib.RedBlack.Rewiring

namespace RedBlack

open RedBlack.RBTree

variable {α : Type}

/-- Some node of the tree has this label and colour. -/
def Painted : RBTree α → α × Color → Prop
  | leaf, _ => False
  | node c l x r, e => e = (x, c) ∨ Painted l e ∨ Painted r e

/-- Some node of the frames has this label and colour. -/
def CtxPainted : List (Frame α) → α × Color → Prop
  | [], _ => False
  | f :: ctx, e => e = (f.key, f.color) ∨ Painted f.sib e ∨ CtxPainted ctx e

/-- At most `n` nodes of the second tree do not have the colours that they have in the first one. -/
def Repaints (n : Nat) (T T' : RBTree α) : Prop := Alters Prod.fst n (Painted T) (Painted T')

/-- What a node with children of these colours has saved up. -/
def charge : Color → Color → Color → Nat
  | .red, _, _ => 0
  | .black, .black, .black => 1
  | .black, .red, .red => 2
  | .black, .black, .red => 0
  | .black, .red, .black => 0

def potential : RBTree α → Nat
  | leaf => 0
  | node c l _ r => charge c l.color r.color + potential l + potential r

/-- The potential of the frames around a focus of this colour. -/
def ctxPotential : List (Frame α) → Color → Nat
  | [], _ => 0
  | f :: ctx, c => charge f.color c f.sib.color + potential f.sib + ctxPotential ctx f.color

section

variable {d : Dir} {c c' c₁ c₂ c₃ c₄ c₅ : Color} {T T' a b near far s s' l r : RBTree α} {x y z k : α} {e : α × Color}
  {ctx : List (Frame α)} {n m : Nat}

@[simp] theorem painted_leaf : ¬ Painted (leaf : RBTree α) e := id

@[simp] theorem painted_dnode : Painted (dnode d c near x far) e ↔ e = (x, c) ∨ Painted near e ∨ Painted far e := by
  cases d with
  | left => exact Iff.rfl
  | right => exact or_congr_right or_comm

theorem painted_plug : Painted (plug ctx s) e ↔ Painted s e ∨ CtxPainted ctx e := by
  induction ctx generalizing s with
  | nil => simp [CtxPainted]
  | cons f ctx ih =>
      rw [plug_cons, ih, Frame.fill, painted_dnode]
      simp only [CtxPainted]
      tauto

/-- Every label has a colour. -/
theorem exists_painted (h : x ∈ T.toList) : ∃ c, Painted T (x, c) := by
  induction T with
  | leaf => simp at h
  | node c l y r ihl ihr =>
      rw [toList_node, List.mem_append, List.mem_cons] at h
      rcases h with hl | rfl | hr
      · exact (ihl hl).imp fun _ hc => .inr (.inl hc)
      · exact ⟨c, .inl rfl⟩
      · exact (ihr hr).imp fun _ hc => .inr (.inr hc)

theorem Repaints.inside (h : Repaints n s s') : Repaints n (plug ctx s) (plug ctx s') := by
  obtain ⟨ks, hks, hkept⟩ := h
  refine ⟨ks, hks, fun e he => ?_⟩
  rw [painted_plug] at he ⊢
  rcases he with hs | hctx
  · exact (hkept e hs).imp_right .inl
  · exact .inr (.inr hctx)

/-- Only the root is painted. -/
theorem Repaints.blacken : Repaints 1 T T.blacken := by
  cases T with
  | leaf => exact Alters.refl.mono (Nat.zero_le 1)
  | node c l x r =>
      refine ⟨[x], Nat.le_refl 1, fun e he => ?_⟩
      rcases he with rfl | he
      · exact .inl (by simp)
      · exact .inr (.inr he)

/-! ### The potential -/

theorem charge_comm (c₁ c₂ c₃ : Color) : charge c₁ c₂ c₃ = charge c₁ c₃ c₂ := by
  cases c₁ <;> cases c₂ <;> cases c₃ <;> rfl

theorem charge_le_two (c₁ c₂ c₃ : Color) : charge c₁ c₂ c₃ ≤ 2 := by
  cases c₁ <;> cases c₂ <;> cases c₃ <;> decide

@[simp] theorem charge_red (c₁ c₂ : Color) : charge .red c₁ c₂ = 0 := rfl

@[simp] theorem charge_black_black : charge .black .black .black = 1 := rfl

@[simp] theorem charge_red_red : charge .black .red .red = 2 := rfl

@[simp] theorem charge_black_red : charge .black .black .red = 0 := rfl

@[simp] theorem charge_red_black : charge .black .red .black = 0 := rfl

@[simp] theorem potential_leaf : potential (leaf : RBTree α) = 0 := rfl

@[simp] theorem potential_dnode :
    potential (dnode d c near x far) = charge c near.color far.color + potential near + potential far := by
  cases d with
  | left => rfl
  | right =>
      rw [dnode, potential, charge_comm]
      omega

theorem potential_plug : potential (plug ctx s) = potential s + ctxPotential ctx s.color := by
  induction ctx generalizing s with
  | nil => rfl
  | cons f ctx ih =>
      rw [plug_cons, ih, Frame.fill, potential_dnode, color_dnode, ctxPotential]
      omega

theorem ctxPotential_le : ctxPotential ctx c ≤ ctxPotential ctx c' + 2 := by
  cases ctx with
  | nil => exact Nat.zero_le _
  | cons f ctx =>
      have hle := charge_le_two f.color c f.sib.color
      simp only [ctxPotential]
      omega

theorem potential_blacken_le : potential T.blacken ≤ potential T + 2 := by
  cases T with
  | leaf => exact Nat.zero_le _
  | node c l x r =>
      have hle := charge_le_two .black l.color r.color
      simp only [blacken_node, potential]
      omega

/-- A red node with black children is worth one more when it is painted black. -/
theorem potential_blacken_of_red (hred : T.color = .red) (hnrr : NoRedRed T) :
    potential T.blacken = potential T + 1 := by
  cases T with
  | leaf => cases hred
  | node c l x r =>
      obtain rfl : c = .red := hred
      obtain ⟨hl, hr⟩ := hnrr.1 rfl
      simp only [blacken_node, potential, hl, hr, charge_black_black, charge_red]
      omega

/-- The potential is a matter of colours. -/
theorem potential_relabel : potential (plug ctx (node c l x r)) = potential (plug ctx (node c l y r)) := by
  simp only [potential_plug, potential, color_node]

/-! ### After an insertion -/

/-- A round that goes on is paid for by the grandparent, whose children were both red. -/
theorem Repaints.recolor {f g : Frame α} : Repaints 3 (plug (f :: g :: ctx) s)
    (plug ctx (dnode g.dir .red (dnode f.dir .black s f.key f.sib) g.key g.sib.blacken)) := by
  have hlocal : Repaints 3 (dnode g.dir g.color (dnode f.dir f.color s f.key f.sib) g.key g.sib)
      (dnode g.dir .red (dnode f.dir .black s f.key f.sib) g.key g.sib.blacken) := by
    obtain ⟨ks, hks, hkept⟩ : Repaints 1 g.sib g.sib.blacken := .blacken
    refine ⟨f.key :: g.key :: ks, Nat.add_le_add_right hks 2, fun e he => ?_⟩
    simp only [painted_dnode, List.mem_cons] at he ⊢
    rcases he with rfl | (rfl | hs | hsib) | hblack
    · exact .inl (.inr (.inl rfl))
    · exact .inl (.inl rfl)
    · exact .inr (.inr (.inl (.inr (.inl hs))))
    · exact .inr (.inr (.inl (.inr (.inr hsib))))
    · have hcases := hkept e hblack
      tauto
  exact hlocal.inside

theorem Repaints.rotate : Repaints 2 (dnode d c₁ (dnode d c₂ a x b) y s) (dnode d c₃ a x (dnode d c₄ b y s)) := by
  refine ⟨[x, y], Nat.le_refl 2, fun e he => ?_⟩
  simp only [painted_dnode, List.mem_cons, List.not_mem_nil, or_false] at he ⊢
  rcases he with rfl | ha | rfl | hb | hs
  · exact .inl (.inl rfl)
  · exact .inr (.inr (.inl (.inr (.inl ha))))
  · exact .inl (.inr rfl)
  · exact .inr (.inr (.inl (.inr (.inr hb))))
  · exact .inr (.inr (.inr hs))

theorem Repaints.rotate_twice : Repaints 3 (dnode d c₁ (dnode d c₂ s x (dnode d c₃ a z b)) y far)
    (dnode d c₄ (dnode d c₅ s x a) z (dnode d c b y far)) := by
  refine ⟨[x, y, z], Nat.le_refl 3, fun e he => ?_⟩
  simp only [painted_dnode, List.mem_cons, List.not_mem_nil, or_false] at he ⊢
  rcases he with rfl | (rfl | hs | ha) | rfl | hb | hfar
  · exact .inl (.inr (.inr rfl))
  · exact .inl (.inl rfl)
  · exact .inr (.inr (.inl (.inr (.inl hs))))
  · exact .inr (.inr (.inl (.inr (.inr (.inr (.inl ha))))))
  · exact .inl (.inr (.inl rfl))
  · exact .inr (.inr (.inl (.inr (.inr (.inr (.inr hb))))))
  · exact .inr (.inr (.inr hfar))

/-- The nodes that the repair after an insertion paints are paid for by the potential, but for a few. -/
theorem InsFix.repaints (h : InsFix ctx s T) (hred : s.color = .red) (hctx : CtxNoRedRed ctx .black) :
    ∃ n, Repaints n (plug ctx s) T ∧ n + 3 * potential T ≤ 3 * (potential s + ctxPotential ctx .black) + 9 := by
  induction h with
  | root s => exact ⟨0, Alters.refl, by simp only [ctxPotential]; omega⟩
  | done f ctx s hf =>
      have hle : ctxPotential (f :: ctx) s.color ≤ ctxPotential (f :: ctx) .black + 2 := ctxPotential_le
      refine ⟨0, Alters.refl, ?_⟩
      rw [potential_plug]
      omega
  | recolor f g ctx s T hf hg h ih =>
      obtain ⟨hfc, hfn, hgc, hgn, hctx⟩ := hctx
      rw [hf] at hgc
      obtain ⟨n, hpaint, hle⟩ := ih (color_dnode _ _ _ _ _) hctx.of_black
      refine ⟨3 + n, Repaints.recolor.trans hpaint, ?_⟩
      have hgblack := Color.black_of_red_child hgc
      have hfsib : f.sib.color = .black := (hfc hf).2
      have hgsib := potential_blacken_of_red hg hgn
      simp only [potential_dnode, color_dnode, color_blacken, hgsib, hred, hfsib, charge_red, charge_red_black] at hle
      simp only [ctxPotential, hf, hg, hgblack, charge_red, charge_red_red]
      omega
  | outer f g ctx s hf hg hdir =>
      obtain ⟨hfc, hfn, hgc, hgn, hctx⟩ := hctx
      rw [hf] at hgc
      have hgblack := Color.black_of_red_child hgc
      refine ⟨2, ?_, ?_⟩
      · simp only [plug_cons, Frame.fill, hdir]
        exact Repaints.rotate.inside
      · simp only [potential_plug, potential_dnode, color_dnode, ctxPotential, hf, hg, hgblack, hred, charge_red,
          charge_red_red, charge_red_black]
        omega
  | inner f g ctx c a b x hf hg hdir =>
      obtain ⟨hfc, hfn, hgc, hgn, hctx⟩ := hctx
      rw [hf] at hgc
      have hgblack := Color.black_of_red_child hgc
      obtain rfl : c = .red := by simpa using hred
      refine ⟨3, ?_, ?_⟩
      · simp only [plug_cons, Frame.fill, hdir, dnode_other]
        exact Repaints.rotate_twice.inside
      · simp only [potential_plug, potential_dnode, color_dnode, ctxPotential, hf, hg, hgblack, charge_red,
          charge_red_red, charge_red_black]
        omega

/-- A new node, whatever the repair paints, costs a constant. -/
theorem InsFix.repaints_hang (h : InsFix ctx (node .red leaf x leaf) T) (hrb : IsRedBlack (plug ctx leaf)) :
    ∃ n, Repaints n (plug ctx leaf) T.blacken ∧ n + 3 * potential T.blacken ≤ 3 * potential (plug ctx leaf) + 17 := by
  obtain ⟨-, hctx, -, -⟩ := hrb.focus
  obtain ⟨n, hpaint, hle⟩ := h.repaints rfl hctx
  have hnew : Repaints 1 (leaf : RBTree α) (node .red leaf x leaf) := by
    refine ⟨[x], Nat.le_refl 1, fun e he => .inl ?_⟩
    simp only [Painted, or_false] at he
    simp [he]
  have hblacken : potential T.blacken ≤ potential T + 2 := potential_blacken_le
  refine ⟨1 + n + 1, (hnew.inside.trans hpaint).trans Repaints.blacken, ?_⟩
  rw [potential_plug, color_leaf, potential_leaf]
  simp only [potential, color_leaf, charge_red] at hle
  omega

/-! ### After a deletion -/

/-- A round that goes on is paid for by the sibling, whose children were both black. -/
theorem Repaints.recolor_sibling : Repaints 1 (plug (⟨d, c, k, dnode d .black near y far⟩ :: ctx) s)
    (plug ctx (dnode d c s k (dnode d .red near y far))) := by
  refine Repaints.inside ⟨[y], Nat.le_refl 1, fun e he => ?_⟩
  simp only [Frame.fill, painted_dnode, List.mem_singleton] at he ⊢
  rcases he with rfl | hs | rfl | hrest
  · exact .inr (.inl rfl)
  · exact .inr (.inr (.inl hs))
  · exact .inl rfl
  · exact .inr (.inr (.inr (.inr hrest)))

theorem potential_recolor_sibling (hs : s.color = .black) (hnear : near.color = .black) (hfar : far.color = .black) :
    potential (plug ctx (dnode d c s k (dnode d .red near y far))) + 1 ≤
      potential (plug (⟨d, c, k, dnode d .black near y far⟩ :: ctx) s) := by
  simp only [potential_plug, ctxPotential, potential_dnode, color_dnode, hs, hnear, hfar, charge_red,
    charge_black_black]
  cases c with
  | red => simp only [charge_red]; omega
  | black => simp only [charge_black_red, charge_black_black]; omega

/-- The last round with the red child of the sibling on the far side. -/
theorem Repaints.outer : Repaints 4 (plug (⟨d, c, k, dnode d .black near y far⟩ :: ctx) s)
    (plug ctx (dnode d c (dnode d .black s k near) y far.blacken)).blacken := by
  have hrotate : Repaints 2 (dnode d c s k (dnode d .black near y far))
      (dnode d c (dnode d .black s k near) y far) := by
    have hmirror : Repaints 2 (dnode d.other c (dnode d.other .black far y near) k s)
        (dnode d.other c far y (dnode d.other .black near k s)) := .rotate
    simpa only [dnode_other] using hmirror
  have hblacken : Repaints 1 (dnode d c (dnode d .black s k near) y far)
      (dnode d c (dnode d .black s k near) y far.blacken) := by
    obtain ⟨ks, hks, hkept⟩ : Repaints 1 far far.blacken := .blacken
    refine ⟨ks, hks, fun e he => ?_⟩
    rw [painted_dnode] at he ⊢
    rcases he with rfl | hnode | hfar
    · exact .inr (.inl rfl)
    · exact .inr (.inr (.inl hnode))
    · exact (hkept e hfar).imp_right fun h => .inr (.inr h)
  have hbelow : Repaints 3 (dnode d c s k (dnode d .black near y far))
      (dnode d c (dnode d .black s k near) y far.blacken) :=
    hrotate.trans hblacken
  exact hbelow.inside.trans Repaints.blacken

theorem potential_outer_le : potential (plug ctx (dnode d c (dnode d .black s k near) y far.blacken)).blacken ≤
    potential (plug (⟨d, c, k, dnode d .black near y far⟩ :: ctx) s) + 8 := by
  have hroot : potential (plug ctx (dnode d c (dnode d .black s k near) y far.blacken)).blacken ≤ _ :=
    potential_blacken_le
  have hfar : potential far.blacken ≤ potential far + 2 := potential_blacken_le
  have hle := charge_le_two c .black far.blacken.color
  have hle' := charge_le_two .black s.color near.color
  simp only [potential_plug, ctxPotential, potential_dnode, color_dnode] at hroot ⊢
  omega

/-- The last round with the red child of the sibling on the near side. -/
theorem Repaints.inner : Repaints 4 (plug (⟨d, c, k, dnode d .black (dnode d .red a z b) y far⟩ :: ctx) s)
    (plug ctx (dnode d c (dnode d .black s k a) z (dnode d .black b y far))).blacken := by
  have hrotate : Repaints 3 (dnode d c s k (dnode d .black (dnode d .red a z b) y far))
      (dnode d c (dnode d .black s k a) z (dnode d .black b y far)) := by
    have hmirror : Repaints 3 (dnode d.other c (dnode d.other .black far y (dnode d.other .red b z a)) k s)
        (dnode d.other c (dnode d.other .black far y b) z (dnode d.other .black a k s)) := .rotate_twice
    simpa only [dnode_other] using hmirror
  exact hrotate.inside.trans Repaints.blacken

theorem potential_inner_le :
    potential (plug ctx (dnode d c (dnode d .black s k a) z (dnode d .black b y far))).blacken ≤
    potential (plug (⟨d, c, k, dnode d .black (dnode d .red a z b) y far⟩ :: ctx) s) + 8 := by
  have hroot : potential (plug ctx (dnode d c (dnode d .black s k a) z (dnode d .black b y far))).blacken ≤ _ :=
    potential_blacken_le
  have hle := charge_le_two c .black .black
  have hle' := charge_le_two .black s.color a.color
  have hle'' := charge_le_two .black b.color far.color
  simp only [potential_plug, ctxPotential, potential_dnode, color_dnode] at hroot ⊢
  omega

/-- A red node takes the missing black one. -/
theorem DelFix.repaints_red_focus (h : DelFix ctx s T) (hred : s.color = .red) :
    Repaints 1 (plug ctx s) T ∧ potential T ≤ potential (plug ctx s) + 4 := by
  have hblacken : potential s.blacken ≤ potential s + 2 := potential_blacken_le
  cases h with
  | root s => exact ⟨Repaints.blacken, by simpa using hblacken.trans (Nat.le_add_right _ 2)⟩
  | red f ctx s hs =>
      have hctx : ctxPotential (f :: ctx) .black ≤ ctxPotential (f :: ctx) s.color + 2 := ctxPotential_le
      refine ⟨Repaints.blacken.inside, ?_⟩
      rw [potential_plug, potential_plug, color_blacken]
      omega
  | redSibling | recolor | inner | outer => simp_all

/-- Below a red node the repair paints a few nodes. -/
theorem DelFix.repaints_of_red (h : DelFix (⟨d, .red, k, near⟩ :: ctx) s T) (hs : s.color = .black)
    (hnear : near.color = .black) : ∃ n, Repaints n (plug (⟨d, .red, k, near⟩ :: ctx) s) T ∧
      n + 3 * potential T ≤ 3 * potential (plug (⟨d, .red, k, near⟩ :: ctx) s) + 28 := by
  cases h with
  | red f ctx s hred =>
      rw [hs] at hred
      cases hred
  | redSibling d c k y near far =>
      rw [color_dnode] at hnear
      cases hnear
  | recolor d c k y near far s T ctx hs' hnear' hfar h =>
      obtain ⟨hpaint, hle⟩ := h.repaints_red_focus (color_dnode _ _ _ _ _)
      have hdrop : potential (plug ctx (dnode d .red s k (dnode d .red near y far))) + 1 ≤ _ :=
        potential_recolor_sibling hs' hnear' hfar
      exact ⟨1 + 1, Repaints.recolor_sibling.trans hpaint, by omega⟩
  | inner d c k y z a b far s ctx hs hfar =>
      have hle : potential (plug ctx (dnode d .red (dnode d .black s k a) z (dnode d .black b y far))).blacken ≤ _ :=
        potential_inner_le
      exact ⟨4, Repaints.inner, by omega⟩
  | outer d c k y near far s ctx hs hfar =>
      have hle : potential (plug ctx (dnode d .red (dnode d .black s k near) y far.blacken)).blacken ≤ _ :=
        potential_outer_le
      exact ⟨4, Repaints.outer, by omega⟩

/-- The nodes that the repair after a deletion paints are paid for by the potential, but for a few. -/
theorem DelFix.repaints (h : DelFix ctx s T) (hdef : Deficient ctx s n) :
    ∃ m, Repaints m (plug ctx s) T ∧ m + 3 * potential T ≤ 3 * potential (plug ctx s) + 42 := by
  induction h generalizing n with
  | root s =>
      have hle : potential s.blacken ≤ potential s + 2 := potential_blacken_le
      exact ⟨1, Repaints.blacken, by rw [plug_nil]; omega⟩
  | red f ctx s hs =>
      obtain ⟨hpaint, hle⟩ := (DelFix.red f ctx s hs).repaints_red_focus hs
      exact ⟨1, hpaint, by omega⟩
  | redSibling d c k y near far s T ctx hs h ih =>
      obtain ⟨hnear, hdef'⟩ := hdef.redSibling
      obtain ⟨m, hpaint, hle⟩ := h.repaints_of_red hs hnear
      have hrotate : Repaints 2 (dnode d c s k (dnode d .red near y far))
          (dnode d .black (dnode d .red s k near) y far) := by
        have hmirror : Repaints 2 (dnode d.other c (dnode d.other .red far y near) k s)
            (dnode d.other .black far y (dnode d.other .red near k s)) := .rotate
        simpa only [dnode_other] using hmirror
      refine ⟨2 + m, hrotate.inside.trans hpaint, ?_⟩
      have hctx : ctxPotential ctx .black ≤ ctxPotential ctx c + 2 := ctxPotential_le
      have hcharge := charge_le_two .black .red far.color
      simp only [potential_plug, ctxPotential, potential_dnode, color_dnode, charge_red] at hle ⊢
      omega
  | recolor d c k y near far s T ctx hs hnear hfar h ih =>
      obtain ⟨m, hpaint, hle⟩ := ih (hdef.recolor hs hnear hfar)
      have hdrop : potential (plug ctx (dnode d c s k (dnode d .red near y far))) + 1 ≤ _ :=
        potential_recolor_sibling hs hnear hfar
      exact ⟨1 + m, Repaints.recolor_sibling.trans hpaint, by omega⟩
  | inner d c k y z a b far s ctx hs hfar =>
      have hle : potential (plug ctx (dnode d c (dnode d .black s k a) z (dnode d .black b y far))).blacken ≤ _ :=
        potential_inner_le
      exact ⟨4, Repaints.inner, by omega⟩
  | outer d c k y near far s ctx hs hfar =>
      have hle : potential (plug ctx (dnode d c (dnode d .black s k near) y far.blacken)).blacken ≤ _ :=
        potential_outer_le
      exact ⟨4, Repaints.outer, by omega⟩

/-- Taking a node out, whatever the repair paints, costs a constant. -/
theorem Removal.repaints (h : Removal ctx c l x r T) (hrb : IsRedBlack (plug ctx (node c l x r))) :
    ∃ n, Repaints n (plug ctx (node c l x r)) T ∧
      n + 3 * potential T ≤ 3 * potential (plug ctx (node c l x r)) + 49 := by
  have hrepaired : ∀ {ctx' : List (Frame α)} {s' : RBTree α} {c' : Color} {d' : Dir} {x' : α},
      IsRedBlack (plug ctx' (dnode d' c' leaf x' s')) → (c' = .red → T = plug ctx' s') →
      (c' = .black → DelFix ctx' s' T) → ∃ m, Repaints m (plug ctx' (dnode d' c' leaf x' s')) T ∧
        m + 3 * potential T ≤ 3 * potential (plug ctx' (dnode d' c' leaf x' s')) + 48 := by
    intro ctx' s' c' d' x' hrb' hred hblack
    have hout : Repaints 0 (plug ctx' (dnode d' c' leaf x' s')) (plug ctx' s') := by
      refine .of_imp fun e he => ?_
      rw [painted_plug] at he ⊢
      rw [painted_dnode]
      tauto
    have hctx : ctxPotential ctx' s'.color ≤ ctxPotential ctx' c' + 2 := ctxPotential_le
    have hsum : potential (plug ctx' s') ≤ potential (plug ctx' (dnode d' c' leaf x' s')) + 2 := by
      simp only [potential_plug, potential_dnode, color_dnode]
      omega
    cases c' with
    | red =>
        rw [hred rfl]
        exact ⟨0, hout, by omega⟩
    | black =>
        obtain ⟨n, hdef⟩ := hrb'.deficient
        obtain ⟨m, hpaint, hle⟩ := (hblack rfl).repaints hdef
        exact ⟨0 + m, hout.trans hpaint, by omega⟩
  cases h with
  | child d s T hnode hred hblack =>
      rw [hnode] at hrb ⊢
      obtain ⟨m, hpaint, hle⟩ := hrepaired hrb hred hblack
      exact ⟨m, hpaint, by omega⟩
  | next spine cy y yr T hright hdir hred hblack =>
      subst hright
      have hrb' : IsRedBlack (plug (spine ++ ⟨.right, c, y, l⟩ :: ctx) (dnode .left cy leaf y yr)) := by
        rw [plug_append]
        exact hrb.relabel y
      obtain ⟨m, hpaint, hle⟩ := hrepaired hrb' hred hblack
      have hrelabel : Repaints 1 (plug ctx (node c l x (plug spine (dnode .left cy leaf y yr))))
          (plug ctx (node c l y (plug spine (dnode .left cy leaf y yr)))) := by
        refine Repaints.inside ⟨[y], Nat.le_refl 1, fun e he => ?_⟩
        rcases he with rfl | he
        · exact .inl (by simp)
        · exact .inr (.inr he)
      rw [plug_append] at hpaint hle
      have hsum : m + 3 * potential T ≤
          3 * potential (plug ctx (node c l y (plug spine (dnode .left cy leaf y yr)))) + 48 := hle
      refine ⟨1 + m, hrelabel.trans hpaint, ?_⟩
      rw [potential_relabel (y := y)]
      omega

end

end RedBlack
