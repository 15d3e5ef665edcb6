/-
Module: Jcl.Lib.RedBlack.Rewiring
Layer: Library
Purpose: How few nodes a repair links anew. The links of a node are its parent and its children; `Rewires n T T'` says
  that at most `n` nodes of `T'` do not have the links that they have in `T`. However far a repair walks, it
  rotates at most twice after an insertion and three times after a deletion, and colours leave the links alone.
Imports: Jcl.Lib.RedBlack.Delete
Trusted boundary: none (fully proved)
Main exports: Links, HasLinks, Rewires, Removal, InsFix.rewires, DelFix.rewires, Removal.rewires
-/
import Jcl.Lib.RedBlack.Delete

namespace RedBlack

open RedBlack.RBTree

variable {α : Type}

/-- At most `n` labels have an entry afterwards that is not one from before. -/
def Alters {E : Type} (key : E → α) (n : Nat) (before after : E → Prop) : Prop :=
  ∃ ks : List α, ks.length ≤ n ∧ ∀ e, after e → key e ∈ ks ∨ before e

section

variable {E : Type} {key : E → α} {P P' P'' : E → Prop} {n m : Nat}

theorem Alters.of_imp (h : ∀ e, P' e → P e) : Alters key 0 P P' := ⟨[], Nat.le_refl 0, fun e he => .inr (h e he)⟩

theorem Alters.refl : Alters key 0 P P := .of_imp fun _ => id

theorem Alters.trans (h : Alters key n P P') (h' : Alters key m P' P'') : Alters key (n + m) P P'' := by
  obtain ⟨ks, hks, hkept⟩ := h
  obtain ⟨ks', hks', hkept'⟩ := h'
  refine ⟨ks ++ ks', by rw [List.length_append]; omega, fun e he => ?_⟩
  rcases hkept' e he with hin | he
  · exact .inl (List.mem_append_right _ hin)
  · exact (hkept e he).imp_left (List.mem_append_left _)

theorem Alters.mono (h : Alters key n P P') (hle : n ≤ m) : Alters key m P P' := by
  obtain ⟨ks, hks, hkept⟩ := h
  exact ⟨ks, hks.trans hle, hkept⟩

end

/-- The label at the root. -/
def label : RBTree α → Option α
  | leaf => none
  | node _ _ x _ => some x

/-- The label above the focus. -/
def top : List (Frame α) → Option α
  | [] => none
  | f :: _ => some f.key

/-- A node with its neighbours. -/
structure Links (α : Type) where
  key : α
  parent : Option α
  left : Option α
  right : Option α

/-- The links of `x` with the child `near` on side `d`. -/
def Links.of (d : Dir) (x : α) (parent near far : Option α) : Links α :=
  match d with
  | .left => ⟨x, parent, near, far⟩
  | .right => ⟨x, parent, far, near⟩

/-- Some node of the tree has these links; the parent of the root is given. -/
def HasLinks : RBTree α → Option α → Links α → Prop
  | leaf, _, _ => False
  | node _ l x r, p, e => e = ⟨x, p, label l, label r⟩ ∨ HasLinks l (some x) e ∨ HasLinks r (some x) e

/-- Some node of the frames has these links, around a focus with this label. -/
def CtxHasLinks : List (Frame α) → Option α → Links α → Prop
  | [], _, _ => False
  | f :: ctx, hole, e => e = .of f.dir f.key (top ctx) hole (label f.sib) ∨ HasLinks f.sib (some f.key) e ∨
      CtxHasLinks ctx (some f.key) e

section

variable {d : Dir} {c c₁ c₂ c₃ c₄ c₅ : Color} {T T' a b near far s s' l r : RBTree α} {x y z k : α}
  {p hole hole' : Option α} {e : Links α} {ctx : List (Frame α)} {n m : Nat}

@[simp] theorem label_leaf : label (leaf : RBTree α) = none := rfl

@[simp] theorem label_node : label (node c l x r) = some x := rfl

@[simp] theorem label_dnode : label (dnode d c near x far) = some x := by cases d <;> rfl

@[simp] theorem label_blacken : label T.blacken = label T := by cases T <;> rfl

@[simp] theorem Links.key_of : (Links.of d x p hole hole').key = x := by cases d <;> rfl

@[simp] theorem hasLinks_leaf : ¬ HasLinks (leaf : RBTree α) p e := id

@[simp] theorem hasLinks_dnode : HasLinks (dnode d c near x far) p e ↔
    e = .of d x p (label near) (label far) ∨ HasLinks near (some x) e ∨ HasLinks far (some x) e := by
  cases d with
  | left => exact Iff.rfl
  | right => exact or_congr_right or_comm

@[simp] theorem hasLinks_blacken : HasLinks T.blacken p e ↔ HasLinks T p e := by cases T <;> exact Iff.rfl

theorem hasLinks_plug : HasLinks (plug ctx s) none e ↔ HasLinks s (top ctx) e ∨ CtxHasLinks ctx (label s) e := by
  induction ctx generalizing s with
  | nil => simp [top, CtxHasLinks]
  | cons f ctx ih =>
      rw [plug_cons, ih, Frame.fill, hasLinks_dnode, label_dnode]
      simp only [CtxHasLinks, top]
      tauto

/-- Every label belongs to a node. -/
theorem exists_hasLinks (h : x ∈ T.toList) : ∃ e, e.key = x ∧ HasLinks T p e := by
  induction T generalizing p with
  | leaf => simp at h
  | node c l y r ihl ihr =>
      rw [toList_node, List.mem_append, List.mem_cons] at h
      rcases h with hl | rfl | hr
      · obtain ⟨e, hkey, he⟩ := ihl (p := some y) hl
        exact ⟨e, hkey, .inr (.inl he)⟩
      · exact ⟨_, rfl, .inl rfl⟩
      · obtain ⟨e, hkey, he⟩ := ihr (p := some y) hr
        exact ⟨e, hkey, .inr (.inr he)⟩

/-- Under another parent only the root is linked anew. -/
theorem HasLinks.reparent (h : HasLinks T p e) (p' : Option α) :
    e.key ∈ (label T).toList ∨ HasLinks T p' e := by
  cases T with
  | leaf => exact h.elim
  | node c l x r =>
      rcases h with rfl | h
      · exact .inl (by simp)
      · exact .inr (.inr h)

/-- Around another focus only the node above it is linked anew. -/
theorem CtxHasLinks.refocus (h : CtxHasLinks ctx hole e) (hole' : Option α) :
    e.key ∈ (top ctx).toList ∨ CtxHasLinks ctx hole' e := by
  cases ctx with
  | nil => exact h.elim
  | cons f ctx =>
      rcases h with rfl | h
      · exact .inl (by simp [top])
      · exact .inr (.inr h)

/-- At most `n` nodes of the second tree are not linked as they are in the first one. -/
def Rewires (n : Nat) (p : Option α) (T T' : RBTree α) : Prop := Alters Links.key n (HasLinks T p) (HasLinks T' p)

theorem Rewires.blacken (h : Rewires n p T T') : Rewires n p T T'.blacken := by
  obtain ⟨ks, hks, hlinks⟩ := h
  exact ⟨ks, hks, fun e he => hlinks e (hasLinks_blacken.1 he)⟩

theorem length_toList_le_one (o : Option α) : o.toList.length ≤ 1 := by cases o <;> simp

/-- What changes below a node changes that node too. -/
theorem Rewires.inside (h : Rewires n (top ctx) s s') : Rewires (n + 1) none (plug ctx s) (plug ctx s') := by
  obtain ⟨ks, hks, hlinks⟩ := h
  have hone := length_toList_le_one (top ctx)
  refine ⟨ks ++ (top ctx).toList, by rw [List.length_append]; omega, fun e he => ?_⟩
  rw [hasLinks_plug] at he ⊢
  rw [List.mem_append]
  rcases he with hs | hctx
  · have hcases := hlinks e hs
    tauto
  · have hcases := hctx.refocus (label s)
    tauto

/-- A rotation. -/
theorem Rewires.rotate : Rewires 3 p (dnode d c₁ (dnode d c₂ a x b) y s) (dnode d c₃ a x (dnode d c₄ b y s)) := by
  have hone := length_toList_le_one (label b)
  refine ⟨x :: y :: (label b).toList, Nat.add_le_add_right hone 2, fun e he => ?_⟩
  simp only [hasLinks_dnode, label_dnode, List.mem_cons] at he ⊢
  rcases he with rfl | ha | rfl | hb | hs
  · exact .inl (.inl (by simp))
  · exact .inr (.inr (.inl (.inr (.inl ha))))
  · exact .inl (.inr (.inl (by simp)))
  · have hcases := hb.reparent (some x)
    tauto
  · exact .inr (.inr (.inr hs))

theorem Rewires.rotate_back :
    Rewires 3 p (dnode d c₁ a x (dnode d c₂ b y s)) (dnode d c₃ (dnode d c₄ a x b) y s) := by
  have hrotate : Rewires 3 p (dnode d.other c₁ (dnode d.other c₂ s y b) x a)
      (dnode d.other c₃ s y (dnode d.other c₄ b x a)) := .rotate
  simpa only [dnode_other] using hrotate

/-- Two rotations that bring the innermost of three nodes up. -/
theorem Rewires.rotate_twice : Rewires 5 p (dnode d c₁ (dnode d c₂ s x (dnode d c₃ a z b)) y far)
    (dnode d c₄ (dnode d c₅ s x a) z (dnode d c b y far)) := by
  have hone := length_toList_le_one (label a)
  have hone' := length_toList_le_one (label b)
  refine ⟨x :: z :: y :: ((label a).toList ++ (label b).toList), ?_, fun e he => ?_⟩
  · simp only [List.length_cons, List.length_append]
    omega
  · simp only [hasLinks_dnode, label_dnode, List.mem_cons, List.mem_append] at he ⊢
    rcases he with rfl | (rfl | hs | ha) | rfl | hb | hfar
    · exact .inl (.inr (.inl (by simp)))
    · exact .inl (.inl (by simp))
    · exact .inr (.inr (.inl (.inr (.inl hs))))
    · have hcases := ha.reparent (some z)
      tauto
    · exact .inl (.inr (.inr (.inl (by simp))))
    · have hcases := hb.reparent (some z)
      tauto
    · exact .inr (.inr (.inr hfar))

theorem Rewires.rotate_twice_back : Rewires 5 p (dnode d c₁ s x (dnode d c₂ (dnode d c₃ a z b) y far))
    (dnode d c₄ (dnode d c₅ s x a) z (dnode d c b y far)) := by
  have hrotate : Rewires 5 p (dnode d.other c₁ (dnode d.other c₂ far y (dnode d.other c₃ b z a)) x s)
      (dnode d.other c₄ (dnode d.other c far y b) z (dnode d.other c₅ a x s)) := .rotate_twice
  simpa only [dnode_other] using hrotate

theorem Rewires.rotate_blacken :
    Rewires 3 p (dnode d c₁ a x (dnode d c₂ b y s)) (dnode d c₃ (dnode d c₄ a x b) y s.blacken) := by
  have hrotate : Rewires 3 p (dnode d c₁ a x (dnode d c₂ b y s)) (dnode d c₃ (dnode d c₄ a x b) y s) := .rotate_back
  obtain ⟨ks, hks, hlinks⟩ := hrotate
  refine ⟨ks, hks, fun e he => hlinks e ?_⟩
  simpa only [hasLinks_dnode, hasLinks_blacken, label_blacken] using he

/-! ### After an insertion -/

/-- The repair after an insertion ends with at most two rotations. -/
theorem InsFix.rewires (h : InsFix ctx s T) : Rewires 6 none (plug ctx s) T := by
  induction h with
  | root s => exact Alters.refl.mono (Nat.zero_le 6)
  | done f ctx s hf => exact Alters.refl.mono (Nat.zero_le 6)
  | recolor f g ctx s T hf hg h ih =>
      have hcolors : Rewires 0 none (plug (f :: g :: ctx) s)
          (plug ctx (dnode g.dir .red (dnode f.dir .black s f.key f.sib) g.key g.sib.blacken)) := by
        refine .of_imp fun e he => ?_
        simp only [plug_cons, Frame.fill, hasLinks_plug, hasLinks_dnode, label_dnode, hasLinks_blacken,
          label_blacken] at he ⊢
        exact he
      exact (hcolors.trans ih).mono (by omega)
  | outer f g ctx s hf hg hdir =>
      simp only [plug_cons, Frame.fill, hdir]
      exact Rewires.rotate.inside.mono (by omega)
  | inner f g ctx c a b x hf hg hdir =>
      simp only [plug_cons, Frame.fill, hdir, dnode_other]
      exact Rewires.rotate_twice.inside

/-- A new leaf changes itself and the node above it. -/
theorem Rewires.hang : Rewires 2 none (plug ctx leaf) (plug ctx (node c leaf x leaf)) := by
  refine Rewires.inside ⟨[x], Nat.le_refl 1, fun e he => ?_⟩
  simp only [HasLinks, or_false] at he
  exact .inl (by simp [he])

/-- Putting a label into a gap links at most eight nodes anew, the new one among them. -/
theorem InsFix.rewires_hang (h : InsFix ctx (node c leaf x leaf) T) : Rewires 8 none (plug ctx leaf) T.blacken :=
  Rewires.blacken (Rewires.hang.trans h.rewires)

/-! ### After a deletion -/

/-- Below a red node the repair ends with at most two rotations. -/
theorem DelFix.rewires_of_red (h : DelFix (⟨d, .red, k, near⟩ :: ctx) s T) (hs : s.color = .black)
    (hnear : near.color = .black) : Rewires 6 none (plug (⟨d, .red, k, near⟩ :: ctx) s) T := by
  cases h with
  | red f ctx s hred =>
      rw [hs] at hred
      cases hred
  | redSibling d c k y near far =>
      rw [color_dnode] at hnear
      cases hnear
  | recolor d c k y near far s T ctx hs hnear hfar h =>
      have hcolors : Rewires 0 none (plug (⟨d, .red, k, dnode d .black near y far⟩ :: ctx) s) T := by
        refine .of_imp fun e he => ?_
        cases h with
        | root s => simpa [Frame.fill] using he
        | red f ctx s hred => simpa [Frame.fill, hasLinks_plug] using he
        | redSibling | recolor | inner | outer => simp_all
      exact hcolors.mono (Nat.zero_le 6)
  | inner d c k y z a b far s ctx hs hfar => exact Rewires.rotate_twice_back.inside.blacken
  | outer d c k y near far s ctx hs hfar => exact Rewires.rotate_blacken.inside.blacken.mono (by omega)

/-- The repair after a deletion makes at most three rotations. -/
theorem DelFix.rewires (h : DelFix ctx s T) (hdef : Deficient ctx s n) : Rewires 10 none (plug ctx s) T := by
  induction h generalizing n with
  | root s =>
      have hsame : Rewires 0 none s s.blacken := Rewires.blacken Alters.refl
      exact hsame.mono (Nat.zero_le 10)
  | red f ctx s hs =>
      refine Alters.mono (.of_imp fun e he => ?_) (Nat.zero_le 10)
      simpa only [hasLinks_plug, hasLinks_blacken, label_blacken] using he
  | redSibling d c k y near far s T ctx hs h ih =>
      obtain ⟨hnear, hdef'⟩ := hdef.redSibling
      have hrotate : Rewires 3 (top ctx) (dnode d c s k (dnode d .red near y far))
          (dnode d .black (dnode d .red s k near) y far) := .rotate_back
      exact hrotate.inside.trans (h.rewires_of_red hs hnear)
  | recolor d c k y near far s T ctx hs hnear hfar h ih =>
      have hcolors : Rewires 0 none (plug (⟨d, c, k, dnode d .black near y far⟩ :: ctx) s)
          (plug ctx (dnode d c s k (dnode d .red near y far))) := by
        refine .of_imp fun e he => ?_
        simpa only [plug_cons, Frame.fill, hasLinks_plug, hasLinks_dnode, label_dnode] using he
      exact (hcolors.trans (ih (hdef.recolor hs hnear hfar))).mono (by omega)
  | inner d c k y z a b far s ctx hs hfar => exact Rewires.rotate_twice_back.inside.blacken.mono (by omega)
  | outer d c k y near far s ctx hs hfar => exact Rewires.rotate_blacken.inside.blacken.mono (by omega)

/-! ### Taking a node out -/

/-- A node is taken out, and the tree is repaired. A node with at most one child gives its place to that child, any
    other node to the one after it. -/
inductive Removal (ctx : List (Frame α)) (c : Color) (l : RBTree α) (x : α) (r : RBTree α) : RBTree α → Prop where
  | child (d : Dir) (s T : RBTree α) (hnode : node c l x r = dnode d c leaf x s)
      (hred : c = .red → T = plug ctx s) (hblack : c = .black → DelFix ctx s T) : Removal ctx c l x r T
  | next (spine : List (Frame α)) (cy : Color) (y : α) (yr T : RBTree α)
      (hright : r = plug spine (dnode .left cy leaf y yr)) (hdir : ∀ f ∈ spine, f.dir = .left)
      (hred : cy = .red → T = plug (spine ++ ⟨.right, c, y, l⟩ :: ctx) yr)
      (hblack : cy = .black → DelFix (spine ++ ⟨.right, c, y, l⟩ :: ctx) yr T) : Removal ctx c l x r T

theorem Removal.toList (h : Removal ctx c l x r T) :
    T.toList = before ctx ++ (l.toList ++ r.toList) ++ after ctx := by
  have hrepaired : ∀ {ctx' : List (Frame α)} {s' : RBTree α} {c' : Color}, (c' = .red → T = plug ctx' s') →
      (c' = .black → DelFix ctx' s' T) → T.toList = (plug ctx' s').toList := by
    intro ctx' s' c' hred hblack
    cases c' with
    | red => rw [hred rfl]
    | black => exact (hblack rfl).toList
  cases h with
  | child d s T hnode hred hblack =>
      have hlist : s.toList = l.toList ++ r.toList := by
        cases d with
        | left =>
            obtain ⟨-, rfl, -, rfl⟩ := RBTree.node.inj hnode
            rfl
        | right =>
            obtain ⟨-, rfl, -, rfl⟩ := RBTree.node.inj hnode
            simp
      rw [hrepaired hred hblack, toList_plug, hlist]
  | next spine cy y yr T hright hdir hred hblack =>
      subst hright
      rw [hrepaired hred hblack, plug_append, plug_cons, toList_plug, toList_spine hdir]
      simp [Frame.fill, dnode]

/-- A node with at most one child leaves its parent and that child linked anew. -/
theorem Rewires.bypass : Rewires 2 none (plug ctx (dnode d c leaf x s)) (plug ctx s) := by
  have hchild : Rewires 1 (top ctx) (dnode d c leaf x s) s := by
    refine ⟨(label s).toList, length_toList_le_one _, fun e he => ?_⟩
    have hcases := he.reparent (some x)
    rw [hasLinks_dnode]
    tauto
  exact hchild.inside

/-- A node gives its place to one that is not in the tree. -/
theorem Rewires.relabel : Rewires 4 none (plug ctx (node c l x r)) (plug ctx (node c l y r)) := by
  have hl := length_toList_le_one (label l)
  have hr := length_toList_le_one (label r)
  refine Rewires.inside ⟨y :: ((label l).toList ++ (label r).toList), ?_, fun e he => ?_⟩
  · simp only [List.length_cons, List.length_append]
    omega
  · simp only [HasLinks, List.mem_cons, List.mem_append] at he ⊢
    rcases he with rfl | hleft | hright
    · exact .inl (.inl rfl)
    · have hcases := hleft.reparent (some x)
      tauto
    · have hcases := hright.reparent (some x)
      tauto

/-- The tree before the repair. -/
theorem Rewires.next {spine : List (Frame α)} {cy : Color} {yr : RBTree α} :
    Rewires 6 none (plug ctx (node c l x (plug spine (dnode .left cy leaf y yr))))
      (plug (spine ++ ⟨.right, c, y, l⟩ :: ctx) yr) := by
  have hout : Rewires 2 none (plug (spine ++ ⟨.right, c, x, l⟩ :: ctx) (dnode .left cy leaf y yr))
      (plug (spine ++ ⟨.right, c, x, l⟩ :: ctx) yr) := .bypass
  rw [plug_append, plug_append] at hout
  rw [plug_append]
  exact hout.trans Rewires.relabel

/-- Taking a node out of a red-black tree links at most 16 others anew. -/
theorem Removal.rewires (h : Removal ctx c l x r T) (hrb : IsRedBlack (plug ctx (node c l x r))) :
    Rewires 16 none (plug ctx (node c l x r)) T := by
  have hrepaired : ∀ {ctx' : List (Frame α)} {s' : RBTree α} {c' : Color} {d' : Dir} {x' : α},
      IsRedBlack (plug ctx' (dnode d' c' leaf x' s')) → (c' = .red → T = plug ctx' s') →
      (c' = .black → DelFix ctx' s' T) → Rewires 10 none (plug ctx' s') T := by
    intro ctx' s' c' d' x' hrb' hred hblack
    cases c' with
    | red =>
        rw [hred rfl]
        exact Alters.refl.mono (Nat.zero_le 10)
    | black =>
        obtain ⟨n, hdef⟩ := hrb'.deficient
        exact (hblack rfl).rewires hdef
  cases h with
  | child d s T hnode hred hblack =>
      rw [hnode] at hrb ⊢
      exact (Rewires.bypass.trans (hrepaired hrb hred hblack)).mono (by omega)
  | next spine cy y yr T hright hdir hred hblack =>
      subst hright
      have hrb' : IsRedBlack (plug (spine ++ ⟨.right, c, y, l⟩ :: ctx) (dnode .left cy leaf y yr)) := by
        rw [plug_append]
        exact hrb.relabel y
      exact Rewires.next.trans (hrepaired hrb' hred hblack)

end

end RedBlack
