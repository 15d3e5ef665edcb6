/-
Module: Jcl.Proofs.Bst.FixupDelete
Layer: Proofs
Purpose: `bst_fixup_delete` performs the repair `DelFix` on the tree in memory, and `bst_delete` takes a
  node out of the tree and repairs it.
Imports: Jcl.Lib.RedBlack.Delete, Jcl.Proofs.Bst.FixupInsert
Trusted boundary: none (fully proved)
Main exports: bstFixupDeleteLoop_spec, bstFixupDelete_spec
-/
import Jcl.Lib.RedBlack.Delete
import Jcl.Proofs.Bst.FixupInsert

namespace Jcl

open RedBlack RedBlack.RBTree TaggedWord

section

variable {K V : Type} {t t' : Bst K V} {d : Dir} {c : Color} {k p q x y z par : Addr}
  {a b e l r s T near far : RBTree Addr} {ctx ctx' : List (Frame Addr)} {f g : Frame Addr}

theorem Holds.ptr_eq_root_iff (h : Holds t (plug ctx s)) : ptr t.nil s = t.root ↔ ctx = [] := by
  obtain ⟨-, hctx, hs, hnodup⟩ := holds_plug.1 h
  rw [h.root]
  cases ctx with
  | nil => simp
  | cons f ctx =>
      have hin : ptr t.nil (plug (f :: ctx) s) ∈ labels (f :: ctx) := ptr_plug_mem
      constructor
      · intro heq
        rw [← heq] at hin
        rcases hs.ptr_mem_or with hnil | hmem
        · exact absurd hnil (hctx.of_mem hin).2.1
        · exact absurd hin fun hin => (nodup_plug.1 hnodup).2.2 hmem hin
      · intro hnil
        cases hnil

variable [Build]

/-- Both children black, seen from either side. -/
theorem returns_bstBlackChildren {Q : Bool → Bst K V → Prop}
    (h : Holds t (plug ctx (dnode d c near y far))) :
    Returns (bstBlackChildren y) t Q ↔ Q (decide (near.color = .black ∧ far.color = .black)) t := by
  obtain ⟨hnil, -, hlinked, -⟩ := holds_plug.1 h
  obtain ⟨hy, hnear, hfar⟩ := linked_dnode.1 hlinked
  have hnearc := hnear.color_ptr hnil
  have hfarc := hfar.color_ptr hnil
  have hnearn := hnear.ptr_ne_null hnil
  have hfarn := hfar.ptr_ne_null hnil
  simp only [bstBlackChildren, returns_bind, returns_readLeft, returns_readRight, returns_bstColor,
    returns_ite, returns_pure]
  cases d with
  | left =>
      have hright : t.child .right y = ptr t.nil far := hy.far
      rw [hy.near, hright, hnearc, hfarc]
      simp only [hy.ne_null, hnearn, hfarn, ne_eq, not_false_eq_true, true_and, Color.word_black_iff]
      by_cases hn : near.color = .black <;> simp [hn]
  | right =>
      have hleft : t.child .left y = ptr t.nil far := hy.far
      rw [hy.near, hleft, hnearc, hfarc]
      simp only [hy.ne_null, hnearn, hfarn, ne_eq, not_false_eq_true, true_and, Color.word_black_iff]
      by_cases hf : far.color = .black <;> simp [hf]

/-- A red sibling is rotated away. -/
theorem bstFixupDeleteRedSibling_red
    (h : Holds t (plug (⟨d, c, k, dnode d .red near y far⟩ :: ctx) s)) :
    Returns (bstFixupDeleteRedSibling d k y) t fun sib t' => sib = ptr t.nil near ∧
      Holds t' (plug (⟨d, .red, k, near⟩ :: ⟨d, .black, y, far⟩ :: ctx) s) ∧
      Frames t t' (plug (⟨d, c, k, dnode d .red near y far⟩ :: ctx) s).toList := by
  have hk := h.frame
  have hsib := h
  rw [plug_flip] at hsib
  have hycolor := hsib.color_focus
  have hynull := hsib.focus_ne_null
  rw [ptr_dnode] at hycolor hynull
  have hrecolored := (h.setColor_sib .black).setColor_frame .red
  simp only [bstFixupDeleteRedSibling, returns_bind, returns_bstColor, returns_ite, hycolor, color_dnode,
    Color.word_red_iff, returns_bstSetColor]
  refine ⟨hynull, fun _ => ⟨hynull, by simp, hk.ne_null, by simp, ?_⟩, fun hnot => absurd trivial hnot⟩
  refine (bstRotate_spec hrecolored).mono fun _ t' ht' => ?_
  obtain ⟨hholds, hframe⟩ := ht'
  have hbelow : Holds t' (plug (⟨d, .red, k, near⟩ :: ⟨d, .black, y, far⟩ :: ctx) s) := hholds
  have hk' := hbelow.frame
  rw [returns_readChild, hk'.far]
  refine ⟨hk.ne_null, ?_, hholds, (Frames.setColor ?_).trans ((Frames.setColor ?_).trans
    (hframe.subset ?_))⟩
  · rw [hframe.nil]
    rfl
  · simp [mem_plug]
  · simp [mem_plug]
  · intro q hq
    simpa [mem_plug] using hq

/-- A black sibling stays. -/
theorem bstFixupDeleteRedSibling_black {sib : Addr} {Q : Addr → Bst K V → Prop}
    (hnull : sib ≠ null) (hc : t.color sib = bstBlack) :
    Returns (bstFixupDeleteRedSibling d k sib) t Q ↔ Q sib t := by
  have hne : bstBlack ≠ bstRed := by decide
  simp [bstFixupDeleteRedSibling, returns_ite, hc, hnull, hne]

/-- The end of the last round: the sibling takes the parent's colour and place. -/
theorem deleteRotateTail_spec {cy : Color} (hfar : far ≠ leaf)
    (h : Holds t (plug (⟨d, c, k, dnode d cy near y far⟩ :: ctx) s)) :
    Returns (do
      bstSetColor y (← bstColor k)
      bstSetColor k bstBlack
      bstSetColor (← readChild d.other y) bstBlack
      bstRotate d k) t fun _ t' =>
      Holds t' (plug ctx (dnode d c (dnode d .black s k near) y far.blacken)) ∧
        Frames t t' (plug (⟨d, c, k, dnode d cy near y far⟩ :: ctx) s).toList := by
  have hk := h.frame
  have h₁ := h.setColor_sib c
  have h₂ := h₁.setColor_frame .black
  -- The far child of the sibling, seen from itself.
  have hflip : ∀ {t₀ : Bst K V} {c₁ c₂ : Color} {u : RBTree Addr},
      Holds t₀ (plug (⟨d, c₁, k, dnode d c₂ near y u⟩ :: ctx) s) ↔
        Holds t₀ (plug (⟨d.other, c₂, y, near⟩ :: ⟨d.other, c₁, k, s⟩ :: ctx) u) := by
    intro t₀ c₁ c₂ u
    rw [plug_flip, plug_cons (⟨d.other, c₂, y, near⟩ : Frame Addr), Frame.fill, dnode_other]
  have hfar₂ := hflip.1 h₂
  have hfarnull := hfar₂.focus_ne_null
  have hy₂ := hfar₂.frame
  have h₃ := hflip.2 hfar₂.blacken
  have hword : Build.asserts = true → Color.word c = bstRed ∨ Color.word c = bstBlack := by
    intro _
    cases c <;> simp
  have hchild : ((t.setColor y (Color.word c)).setColor k bstBlack).child d.other y = ptr t.nil far :=
    hy₂.near
  simp only [returns_bind, returns_bstColor, returns_bstSetColor, returns_readChild, hk.color, hchild]
  refine ⟨hk.ne_null, hy₂.ne_null, hword, hk.ne_null, by simp, hy₂.ne_null, hfarnull, by simp, ?_⟩
  refine (bstRotate_spec h₃).mono fun _ t' ht' => ?_
  obtain ⟨hholds, hframe⟩ := ht'
  have hfarin : ptr t.nil far ∈ far.toList :=
    ptr_mem fun hnil => hfar ((ptr_eq_nil_iff (holds_plug.1 hfar₂).2.2.1).1 hnil)
  refine ⟨hholds, (Frames.setColor ?_).trans <| (Frames.setColor ?_).trans <|
    (Frames.setColor ?_).trans (hframe.subset ?_)⟩
  · simp [mem_plug]
  · simp [mem_plug]
  · simp only [mem_plug, labels_cons, List.mem_cons, List.mem_append, mem_dnode]
    tauto
  · intro q hq
    simpa [mem_plug] using hq

/-- The last round: one or two rotations. -/
theorem bstFixupDeleteRotate_spec (h : Holds t (plug (⟨d, c, k, dnode d .black near y far⟩ :: ctx) s))
    (hs : s.color = .black) (hred : ¬ (near.color = .black ∧ far.color = .black)) :
    Returns (bstFixupDeleteRotate d k y) t fun _ t' => ∃ T,
      DelFix (⟨d, c, k, dnode d .black near y far⟩ :: ctx) s T.blacken ∧ Holds t' T ∧
      Frames t t' (plug (⟨d, c, k, dnode d .black near y far⟩ :: ctx) s).toList := by
  have hk := h.frame
  have hsib := h
  rw [plug_flip] at hsib
  have hynull := hsib.focus_ne_null
  rw [ptr_dnode] at hynull
  obtain ⟨hnil, -, hlinked, -⟩ := holds_plug.1 hsib
  obtain ⟨hy, hnear, hfarl⟩ := linked_dnode.1 hlinked
  simp only [bstFixupDeleteRotate, returns_bind, returns_readChild, returns_bstColor, returns_ite, hy.far,
    hfarl.color_ptr hnil, Color.word_black_iff, returns_pure, hy.near]
  refine ⟨hynull, hfarl.ptr_ne_null hnil, fun hfar => ?_, fun hfar => ?_⟩
  · -- Only the near child of the sibling is red: it is rotated over the sibling first.
    have hnearred : near.color = .red := by
      cases hc : near.color with
      | red => rfl
      | black => exact absurd ⟨hc, hfar⟩ hred
    have hnearne : near ≠ leaf := by
      intro hleaf
      rw [hleaf] at hnearred
      cases hnearred
    obtain ⟨cz, a, z, b, rfl⟩ := RBTree.exists_dnode_of_ne d hnearne
    rw [color_dnode] at hnearred
    subst hnearred
    have hz : Holds t (plug (⟨d, .black, y, far⟩ :: ⟨d.other, c, k, s⟩ :: ctx) (dnode d .red a z b)) := hsib
    have hznull := hz.focus_ne_null
    rw [ptr_dnode] at hznull
    have hrecolored := (hz.setColor .black).setColor_frame .red
    have hrot : Holds ((t.setColor z (Color.word .black)).setColor y (Color.word .red))
        (plug (⟨d.other, c, k, s⟩ :: ctx) (dnode d.other .red far y (dnode d.other .black b z a))) := by
      rw [dnode_other, dnode_other]
      exact hrecolored
    rw [ptr_dnode]
    simp only [returns_bstSetColor]
    refine ⟨hynull, hznull, by simp, hynull, by simp, (bstRotate_spec hrot).mono fun _ t₁ ht₁ => ?_⟩
    obtain ⟨h₁, hframe₁⟩ := ht₁
    rw [dnode_other, dnode_other] at h₁
    have h₁' : Holds t₁ (plug (⟨d, c, k, dnode d .black a z (dnode d .red b y far)⟩ :: ctx) s) := by
      rw [plug_flip]
      exact h₁
    have hchild : t₁.child d.other k = z := by
      have hfar₁ := h₁'.frame.far
      rwa [ptr_dnode] at hfar₁
    rw [hchild]
    refine ⟨hk.ne_null, ?_⟩
    have hframe : Frames t t₁ (plug (⟨d, c, k, dnode d .black (dnode d .red a z b) y far⟩ :: ctx) s).toList := by
      refine (Frames.setColor ?_).trans ((Frames.setColor ?_).trans (hframe₁.subset fun q hq => ?_))
      · simp [mem_plug]
      · simp [mem_plug]
      · simp only [mem_plug, plug_cons, mem_fill, mem_dnode] at hq ⊢
        tauto
    have htail := (deleteRotateTail_spec (by cases d <;> simp [dnode]) h₁').mono (R := fun _ t' => ∃ T,
      DelFix (⟨d, c, k, dnode d .black (dnode d .red a z b) y far⟩ :: ctx) s T.blacken ∧ Holds t' T ∧
      Frames t t' (plug (⟨d, c, k, dnode d .black (dnode d .red a z b) y far⟩ :: ctx) s).toList)
      fun _ t' ht' => ⟨_, DelFix.inner d c k y z a b far s ctx hs hfar, by simpa using ht'.1, ?_⟩
    · simpa only [returns_bind, returns_bstColor, returns_readChild, returns_bstSetColor,
        Color.word_black_iff] using htail
    · refine hframe.trans (ht'.2.subset fun q hq => ?_)
      simp only [mem_plug, plug_cons, mem_fill, mem_dnode] at hq ⊢
      tauto
  · -- The far child of the sibling is red.
    have hfarred : far.color = .red := by
      cases hc : far.color with
      | red => rfl
      | black => exact absurd hc hfar
    have hfarne : far ≠ leaf := by
      intro hleaf
      rw [hleaf] at hfarred
      cases hfarred
    have htail := (deleteRotateTail_spec hfarne h).mono (R := fun _ t' => ∃ T,
      DelFix (⟨d, c, k, dnode d .black near y far⟩ :: ctx) s T.blacken ∧ Holds t' T ∧
      Frames t t' (plug (⟨d, c, k, dnode d .black near y far⟩ :: ctx) s).toList)
      fun _ t' ht' => ⟨_, DelFix.outer d c k y near far s ctx hs hfarred, ht'.1, ht'.2⟩
    simpa only [returns_bind, returns_bstColor, returns_readChild, returns_bstSetColor,
      Color.word_black_iff] using htail

/-- What the loop of `bst_fixup_delete` leaves to do: colouring its last node completes the repair. -/
def DelLoopPost (t : Bst K V) (ctx : List (Frame Addr)) (s : RBTree Addr) (node : Addr) (t' : Bst K V) :
    Prop :=
  ∃ ctx' s', node = ptr t.nil s' ∧ Holds t' (plug ctx' s') ∧ DelFix ctx s (plug ctx' s'.blacken) ∧
    Frames t t' (plug ctx s).toList

/-- The loop stops at the root and at a red node. -/
theorem bstFixupDeleteLoop_stop {m : Nat} (h : Holds t (plug ctx s)) (hstop : ctx = [] ∨ s.color = .red) :
    Returns (bstFixupDeleteLoop m (ptr t.nil s)) t (DelLoopPost t ctx s) := by
  have hpost : DelLoopPost t ctx s (ptr t.nil s) t := by
    refine ⟨ctx, s, rfl, h, ?_, Frames.refl⟩
    cases ctx with
    | nil => exact DelFix.root s
    | cons f ctx =>
        rcases hstop with hnil | hred
        · cases hnil
        · exact DelFix.red f ctx s hred
  have hroot := h.ptr_eq_root_iff
  have hred : ctx ≠ [] → t.color (ptr t.nil s) ≠ bstBlack := by
    intro hne
    rw [h.color_focus, ne_eq, Color.word_black_iff]
    rcases hstop with hnil | hred
    · exact absurd hnil hne
    · rw [hred]
      simp
  cases m with
  | zero =>
      simp only [bstFixupDeleteLoop, returns_bind, returns_get, returns_ite, returns_pure, returns_bstColor]
      refine ⟨fun _ => hpost, fun hne => ⟨h.focus_ne_null, fun hblack => ?_, fun _ => hpost⟩⟩
      exact absurd hblack (hred fun hnil => hne (hroot.2 hnil))
  | succ m =>
      simp only [bstFixupDeleteLoop, returns_bind, returns_get, returns_ite, returns_pure, returns_bstColor]
      refine ⟨fun _ => hpost, fun hne => ⟨h.focus_ne_null, fun hblack => ?_, fun _ => hpost⟩⟩
      exact absurd hblack (hred fun hnil => hne (hroot.2 hnil))

/-- A round with a black sibling, when the rounds after it are as specified. -/
theorem bstFixupDeleteRound_spec {m : Nat}
    (h : Holds t (plug (⟨d, c, k, dnode d .black near y far⟩ :: ctx) s)) (hs : s.color = .black)
    (hrec : near.color = .black → far.color = .black →
      ∀ t₁ : Bst K V, Holds t₁ (plug ctx (dnode d c s k (dnode d .red near y far))) →
      Returns (bstFixupDeleteLoop m k) t₁
        (DelLoopPost t₁ ctx (dnode d c s k (dnode d .red near y far)))) :
    Returns (do
      if (← bstBlackChildren y) then
        bstSetColor y bstRed
        bstFixupDeleteLoop m k
      else
        bstFixupDeleteRotate d k y
        bstFixupDeleteLoop m (← get).root) t
      (DelLoopPost t (⟨d, c, k, dnode d .black near y far⟩ :: ctx) s) := by
  have hsib := h
  rw [plug_flip] at hsib
  have hynull := hsib.focus_ne_null
  rw [ptr_dnode] at hynull
  rw [returns_bind, returns_bstBlackChildren hsib, returns_ite]
  simp only [decide_eq_true_eq]
  refine ⟨fun hblack => ?_, fun hred => ?_⟩
  · rw [returns_bind, returns_bstSetColor]
    refine ⟨hynull, by simp, ?_⟩
    have hrecolored : Holds (t.setColor y bstRed) (plug ctx (dnode d c s k (dnode d .red near y far))) :=
      h.setColor_sib .red
    refine (hrec hblack.1 hblack.2 _ hrecolored).mono fun node t' hpost => ?_
    obtain ⟨ctx', s', hnode, hholds, hfix, hframe⟩ := hpost
    refine ⟨ctx', s', hnode, hholds, DelFix.recolor d c k y near far s _ ctx hs hblack.1 hblack.2 hfix,
      (Frames.setColor ?_).trans (hframe.subset fun q hq => ?_)⟩
    · simp [mem_plug]
    · simpa [mem_plug] using hq
  · rw [returns_bind]
    refine (bstFixupDeleteRotate_spec h hs hred).mono fun _ t₁ ht₁ => ?_
    obtain ⟨T, hfix, hholds, hframe⟩ := ht₁
    simp only [returns_bind, returns_get]
    have hstop := bstFixupDeleteLoop_stop (m := m) (show Holds t₁ (plug [] T) from hholds) (Or.inl rfl)
    rw [hholds.root]
    refine hstop.mono fun node t' hpost => ?_
    obtain ⟨ctx', s', hnode, hholds', hfix', hframe'⟩ := hpost
    have hlist := hfix.toList
    rw [toList_blacken] at hlist
    rw [plug_nil, hlist] at hframe'
    rw [← hfix'.of_root] at hfix
    refine ⟨ctx', s', ?_, hholds', hfix, hframe.trans hframe'⟩
    rw [hnode, hframe.nil]

theorem bstFixupDeleteLoop_spec {m n : Nat} (h : Focused t ctx s) (hdef : Deficient ctx s n)
    (hm : ctx.length ≤ m) :
    Returns (bstFixupDeleteLoop m (ptr t.nil s)) t (DelLoopPost t ctx s) := by
  induction m generalizing t ctx s n with
  | zero =>
      obtain rfl : ctx = [] := List.length_eq_zero_iff.1 (Nat.le_zero.1 hm)
      exact bstFixupDeleteLoop_stop h.holds (Or.inl rfl)
  | succ m ih =>
      by_cases hstop : ctx = [] ∨ s.color = .red
      · exact bstFixupDeleteLoop_stop h.holds hstop
      rw [not_or] at hstop
      obtain ⟨hne, hnotred⟩ := hstop
      have hs : s.color = .black := by
        cases hc : s.color with
        | black => rfl
        | red => exact absurd hc hnotred
      cases ctx with
      | nil => exact absurd rfl hne
      | cons f ctx =>
          obtain ⟨d, c, k, sib⟩ := f
          obtain ⟨cy, near, y, far, rfl⟩ := RBTree.exists_dnode_of_ne d hdef.sib_ne_leaf
          have hk := h.holds.frame
          have hroot : ptr t.nil s ≠ t.root := by
            rw [ne_eq, h.holds.ptr_eq_root_iff]
            simp
          have hside : (if ptr t.nil s = t.child .left k then Dir.left else Dir.right) = d := by
            have hiff := h.holds.child_eq_iff (d := .left) (Or.inr hdef.sib_ne_leaf)
            by_cases hleft : Dir.left = d
            · rw [if_pos (hiff.2 hleft), hleft]
            · rw [if_neg fun hin => hleft (hiff.1 hin)]
              cases d with
              | left => exact absurd rfl hleft
              | right => rfl
          have hparent := h.parent
          rw [ctxParent_cons] at hparent
          have hsibling : t.child d.other k = y := by
            have hfar := hk.far
            rwa [ptr_dnode] at hfar
          simp only [bstFixupDeleteLoop, returns_bind, returns_get, returns_ite, returns_bstColor,
            returns_bstParent, returns_readLeft, returns_readChild, hparent, hside, hsibling]
          refine ⟨fun hin => absurd hin hroot, fun _ => ⟨h.holds.focus_ne_null, fun _ => ?_, fun hred => ?_⟩⟩
          · refine ⟨h.holds.focus_ne_null, hk.ne_null, hk.ne_null, ?_⟩
            cases cy with
            | black =>
                have hflip := h.holds
                rw [plug_flip] at hflip
                have hynull := hflip.focus_ne_null
                have hycolor := hflip.color_focus
                rw [ptr_dnode] at hynull hycolor
                rw [color_dnode] at hycolor
                rw [bstFixupDeleteRedSibling_black hynull hycolor]
                have hround := bstFixupDeleteRound_spec (m := m) h.holds hs fun hnear hfar t₁ h₁ => by
                  have hrec := ih (h₁.focused fun hleaf => ?_) (hdef.recolor hs hnear hfar)
                    (by simpa using hm)
                  · rwa [ptr_dnode] at hrec
                  · cases d <;> cases hleaf
                simpa only [returns_bind, returns_ite, returns_get] using hround
            | red =>
                obtain ⟨hnear, hdef'⟩ := hdef.redSibling
                refine (bstFixupDeleteRedSibling_red h.holds).mono fun sib t₁ ht₁ => ?_
                obtain ⟨rfl, hholds₁, hframe₁⟩ := ht₁
                have hnearne : near ≠ leaf := hdef'.sib_ne_leaf
                obtain ⟨cn, a, z, b, rfl⟩ := RBTree.exists_dnode_of_ne d hnearne
                rw [color_dnode] at hnear
                subst hnear
                rw [ptr_dnode]
                have hround := (bstFixupDeleteRound_spec (m := m) hholds₁ hs fun ha hb t₂ h₂ => by
                  have hstop := bstFixupDeleteLoop_stop (m := m) h₂ (Or.inr (color_dnode _ _ _ _ _))
                  rwa [ptr_dnode] at hstop).mono
                    (R := DelLoopPost t (⟨d, c, k, dnode d .red (dnode d .black a z b) y far⟩ :: ctx) s) ?_
                · simpa only [returns_bind, returns_ite, returns_get] using hround
                · intro node t' hpost
                  obtain ⟨ctx', s', hnode, hholds, hfix, hframe⟩ := hpost
                  refine ⟨ctx', s', ?_, hholds, DelFix.redSibling d c k y _ far s _ ctx hs hfix,
                    hframe₁.trans (hframe.subset fun q hq => ?_)⟩
                  · rw [hnode, hframe₁.nil]
                  · simp only [mem_plug, plug_cons, mem_fill, mem_dnode] at hq ⊢
                    tauto
          · rw [h.holds.color_focus, hs] at hred
            exact absurd rfl hred

/-- `bst_fixup_delete` restores the red-black conditions. -/
theorem bstFixupDelete_spec {n : Nat} (h : Focused t ctx s) (hdef : Deficient ctx s n) :
    Returns (bstFixupDelete (ptr t.nil s)) t fun _ t' => ∃ T, DelFix ctx s T ∧ Holds t' T ∧
      Frames t t' (t.nil :: (plug ctx s).toList) := by
  have hlen : ctx.length ≤ loopBound := by
    have hlabels := (nodup_plug.1 h.holds.nodup).2.1
    exact (length_le_length_labels ctx).trans (length_le_loopBound hlabels)
  rw [bstFixupDelete, returns_bind]
  refine (bstFixupDeleteLoop_spec h hdef hlen).mono fun node t₁ hpost => ?_
  obtain ⟨ctx', s', hnode, hholds, hfix, hframe⟩ := hpost
  rw [hnode, ← hframe.nil, returns_bstSetColor]
  refine ⟨hholds.focus_ne_null, by simp, _, hfix, hholds.blacken,
    (hframe.subset fun q hq => List.mem_cons_of_mem _ hq).trans (Frames.setColor ?_)⟩
  obtain ⟨-, -, hs', -⟩ := holds_plug.1 hholds
  rcases hs'.ptr_mem_or with hnil | hin
  · rw [hnil, hframe.nil]
    exact List.mem_cons_self
  · refine List.mem_cons_of_mem _ ?_
    rw [← hfix.toList, mem_plug, toList_blacken]
    exact Or.inl hin

/-! ### `bst_delete` -/

/-- The repair after the node has been taken out. -/
theorem deleteRepair_spec (h : Focused t ctx s) (hblack : c = .black → ∃ n, Deficient ctx s n)
    (hred : c = .red → IsRedBlack (plug ctx s)) :
    Returns (if Color.word c = bstBlack then bstFixupDelete (ptr t.nil s) else pure ()) t fun _ t' =>
      ∃ T, Holds t' T ∧ IsRedBlack T ∧ T.toList = (plug ctx s).toList ∧
        Frames t t' (t.nil :: (plug ctx s).toList) := by
  rw [returns_ite, Color.word_black_iff]
  refine ⟨fun hc => ?_, fun hc => ?_⟩
  · obtain ⟨n, hdef⟩ := hblack hc
    refine (bstFixupDelete_spec h hdef).mono fun _ t' ht' => ?_
    obtain ⟨T, hfix, hholds, hframe⟩ := ht'
    exact ⟨T, hholds, hfix.isRedBlack hdef, hfix.toList, hframe⟩
  · rw [returns_pure]
    refine ⟨_, h.holds, hred ?_, rfl, Frames.refl⟩
    cases c with
    | red => rfl
    | black => exact absurd rfl hc

/-- What `bst_delete` of the node `x` leaves. The fields of a node with at most one child stay. -/
def DeletePost (t : Bst K V) (ctx : List (Frame Addr)) (c : Color) (l : RBTree Addr) (x : Addr)
    (r : RBTree Addr) (t' : Bst K V) : Prop :=
  ∃ T, Holds t' T ∧ IsRedBlack T ∧ T.toList = before ctx ++ (l.toList ++ r.toList) ++ after ctx ∧
    Frames t t' (t.nil :: (plug ctx (node c l x r)).toList) ∧
    (l = leaf ∨ r = leaf → Frames t t' (t.nil :: T.toList))

/-- A node with at most one child. -/
theorem deleteOneChild_spec (h : Holds t (plug ctx (dnode d c leaf x s)))
    (hrb : IsRedBlack (plug ctx (dnode d c leaf x s))) :
    Returns (bstTransplant x (ptr t.nil s)) t fun _ t₁ =>
      Returns (if Color.word c = bstBlack then bstFixupDelete (ptr t.nil s) else pure ()) t₁ fun _ t' =>
        ∃ T, Holds t' T ∧ IsRedBlack T ∧ T.toList = before ctx ++ s.toList ++ after ctx ∧
          Frames t t' (t.nil :: T.toList) := by
  refine (bstTransplant_spec h).mono fun _ t₁ ht₁ => ?_
  obtain ⟨hfoc, hframe⟩ := ht₁
  have hrepair := deleteRepair_spec (c := c) hfoc (fun hc => by
    subst hc
    exact hrb.deficient) fun hc => by
    subst hc
    exact hrb.remove_red
  rw [hframe.nil] at hrepair
  refine hrepair.mono fun _ t' ht' => ?_
  obtain ⟨T, hholds, hrb', hlist, hframe'⟩ := ht'
  rw [← hlist] at hframe hframe'
  exact ⟨T, hholds, hrb', hlist.trans (toList_plug ctx s), hframe.trans hframe'⟩

theorem bstDelete_spec (h : Holds t (plug ctx (node c l x r))) (hrb : IsRedBlack (plug ctx (node c l x r))) :
    Returns (bstDelete x) t fun _ t' => DeletePost t ctx c l x r t' := by
  obtain ⟨hnil, hctx, ⟨hx, hl, hr⟩, -⟩ := holds_plug.1 h
  have hright : t.child .right x = ptr t.nil r := hx.far
  have hone : ∀ (s : RBTree Addr) (t' : Bst K V), s.toList = l.toList ++ r.toList →
      (∃ T, Holds t' T ∧ IsRedBlack T ∧ T.toList = before ctx ++ s.toList ++ after ctx ∧
        Frames t t' (t.nil :: T.toList)) → DeletePost t ctx c l x r t' := by
    intro s t' hlist hpost
    obtain ⟨T, hholds, hrb', hT, hframe⟩ := hpost
    refine ⟨T, hholds, hrb', by rw [hT, hlist], hframe.subset fun q hq => ?_, fun _ => hframe⟩
    rw [hT, hlist] at hq
    simp only [toList_plug, toList_node, List.mem_cons, List.mem_append] at hq ⊢
    tauto
  simp only [bstDelete, returns_bind, returns_get, returns_assert, returns_bstColor, returns_readLeft,
    returns_readRight, returns_ite, hx.near, hright, hx.color, ptr_eq_nil_iff hl, ptr_eq_nil_iff hr]
  refine ⟨fun _ => by simpa using hx.ne_nil, hx.ne_null, hx.ne_null, hx.ne_null, fun hleaf => ⟨hx.ne_null, ?_⟩,
    fun hlne => ⟨fun hleaf => ⟨hx.ne_null, ?_⟩, fun hrne => ?_⟩⟩
  · -- There is nothing to the left of the node.
    subst hleaf
    refine (deleteOneChild_spec (d := .left) h hrb).mono fun _ t₁ hrest => ?_
    rw [returns_pure]
    exact (returns_ite.1 (hrest.mono fun _ t' hpost => hone r t' rfl hpost))
  · -- There is nothing to the right of the node.
    subst hleaf
    refine (deleteOneChild_spec (d := .right) h hrb).mono fun _ t₁ hrest => ?_
    rw [returns_pure]
    exact (returns_ite.1 (hrest.mono fun _ t' hpost => hone l t' (by simp) hpost))
  · refine (bstDeleteSplice_spec h hlne hrne).mono fun res t₁ hpost => ?_
    obtain ⟨spine, cy, y, yr, hplug, hdir, rfl, hfoc, hframe⟩ := hpost
    have hrb' : IsRedBlack (plug (spine ++ ⟨.right, c, y, l⟩ :: ctx) (dnode .left cy leaf y yr)) := by
      rw [hplug] at hrb
      have hrelabel := hrb.relabel y
      rw [plug_append]
      exact hrelabel
    have hlist : (plug (spine ++ ⟨.right, c, y, l⟩ :: ctx) yr).toList =
        before ctx ++ (l.toList ++ r.toList) ++ after ctx := by
      rw [plug_append, hplug, toList_spine hdir]
      simp [toList_plug, Frame.fill, dnode]
    have hrepair := deleteRepair_spec (c := cy) hfoc (fun hc => by
      subst hc
      exact hrb'.deficient) fun hc => by
      subst hc
      exact hrb'.remove_red
    rw [hframe.nil] at hrepair
    refine returns_ite.1 (hrepair.mono fun _ t' ht' => ?_)
    obtain ⟨T, hholds, hrbT, hT, hframe'⟩ := ht'
    refine ⟨T, hholds, hrbT, hT.trans hlist, hframe.trans (hframe'.subset fun q hq => ?_), ?_⟩
    · rw [hlist] at hq
      simp only [toList_plug, toList_node, List.mem_cons, List.mem_append] at hq ⊢
      tauto
    · intro hleaf
      rcases hleaf with hleaf | hleaf
      · exact absurd hleaf hlne
      · exact absurd hleaf hrne

end

end Jcl
