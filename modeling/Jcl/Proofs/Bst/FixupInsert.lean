/-
Module: Jcl.Proofs.Bst.FixupInsert
Layer: Proofs
Purpose: `bst_fixup_insert` performs the repair `InsFix` on the tree in memory. One round of the loop is
  one step of the repair; the frames around the node count the rounds.
Imports: Jcl.Lib.RedBlack.Insert, Jcl.Proofs.Bst.Splice
Trusted boundary: none (fully proved)
Main exports: bstFixupInsertLoop_spec, bstFixupInsert_spec
-/
import Jcl.Lib.RedBlack.Insert
import Jcl.Proofs.Bst.Splice

namespace Jcl

open RedBlack RedBlack.RBTree TaggedWord

section

variable {K V : Type} {t t' : Bst K V} {d : Dir} {c : Color} {p q x y par : Addr}
  {a b e l r s T : RBTree Addr} {ctx : List (Frame Addr)} {f g : Frame Addr}

theorem Holds.ptr_ne_sib (h : Holds t (plug (f :: ctx) s)) (hne : s ≠ leaf ∨ f.sib ≠ leaf) :
    ptr t.nil s ≠ ptr t.nil f.sib := by
  obtain ⟨-, hctx, hs, hnodup⟩ := holds_plug.1 h
  intro heq
  have hboth : s ≠ leaf ∧ f.sib ≠ leaf := by
    rw [ne_eq, ne_eq, ← ptr_eq_nil_iff hs, ← ptr_eq_nil_iff hctx.2.1] at hne ⊢
    rw [heq] at hne ⊢
    tauto
  have hin : ptr t.nil s ∈ s.toList := ptr_mem fun hnil => hboth.1 ((ptr_eq_nil_iff hs).1 hnil)
  have hin' : ptr t.nil f.sib ∈ f.sib.toList :=
    ptr_mem fun hnil => hboth.2 ((ptr_eq_nil_iff hctx.2.1).1 hnil)
  rw [heq] at hin
  exact (nodup_plug.1 hnodup).2.2 hin (by simp [hin'])

/-- The test for the side on which a node hangs. -/
theorem Holds.child_eq_iff (h : Holds t (plug (f :: ctx) s)) (hne : s ≠ leaf ∨ f.sib ≠ leaf) :
    ptr t.nil s = t.child d f.key ↔ d = f.dir := by
  have hsib := h.ptr_ne_sib hne
  obtain ⟨-, ⟨hf, -⟩, -⟩ := holds_plug.1 h
  by_cases hd : d = f.dir
  · rw [hd, hf.near]
    simp
  · have hother : d = f.dir.other := by cases d <;> cases hdir : f.dir <;> simp_all [Dir.other]
    rw [hother, hf.far]
    simp [hsib]

/-- The address of the focus leads to the frame above it. -/
theorem Holds.parent_focus (h : Holds t (plug ctx s)) (hs : s ≠ leaf) :
    t.parent (ptr t.nil s) = ctxParent t.nil ctx := by
  obtain ⟨-, -, hlinked, -⟩ := holds_plug.1 h
  cases s with
  | leaf => exact absurd rfl hs
  | node c l x r => exact hlinked.1.parent

theorem Holds.color_focus (h : Holds t (plug ctx s)) : t.color (ptr t.nil s) = Color.word s.color := by
  obtain ⟨hnil, -, hlinked, -⟩ := holds_plug.1 h
  exact hlinked.color_ptr hnil

theorem Holds.focus_ne_null (h : Holds t (plug ctx s)) : ptr t.nil s ≠ null := by
  obtain ⟨hnil, -, hlinked, -⟩ := holds_plug.1 h
  exact hlinked.ptr_ne_null hnil

/-- The frame above the focus, as the node it is. -/
theorem Holds.frame (h : Holds t (plug (f :: ctx) s)) :
    NodeAt t f.dir f.color (ptr t.nil s) (ptr t.nil f.sib) f.key (ctxParent t.nil ctx) := by
  obtain ⟨-, ⟨hf, -⟩, -⟩ := holds_plug.1 h
  exact hf

theorem RBTree.exists_dnode_of_ne (d : Dir) (hs : s ≠ leaf) : ∃ c a x b, s = dnode d c a x b := by
  cases s with
  | leaf => exact absurd rfl hs
  | node c l x r =>
      obtain ⟨near, far, h⟩ := exists_dnode d c l r x
      exact ⟨c, near, x, far, h⟩

/-- A round with a red uncle. -/
theorem Holds.recolored (h : Holds t (plug (f :: g :: ctx) s)) :
    Holds (((t.setColor f.key bstBlack).setColor (ptr t.nil g.sib) bstBlack).setColor g.key bstRed)
      (plug ctx (dnode g.dir .red (dnode f.dir .black s f.key f.sib) g.key g.sib.blacken)) := by
  obtain ⟨gd, gc, z, e⟩ := g
  have hparent : Holds (t.setColor f.key bstBlack)
      (plug (⟨gd, gc, z, e⟩ :: ctx) (dnode f.dir .black s f.key f.sib)) :=
    (show Holds t (plug (⟨gd, gc, z, e⟩ :: ctx) (dnode f.dir f.color s f.key f.sib)) from h).setColor .black
  rw [plug_flip] at hparent
  have huncle := hparent.blacken
  rw [plug_flip, Dir.other_other] at huncle
  exact huncle.setColor_frame .red

/-- The memory after the fields of a new node have been set. -/
def Bst.freshLeaf (t : Bst K V) (x par : Addr) : Bst K V :=
  ((t.setChild .left x t.nil).setChild .right x t.nil).setParentColor x (par ||| bstRed)

theorem Frames.freshLeaf : Frames t (t.freshLeaf x par) [x] :=
  (Frames.setChild (by simp)).trans ((Frames.setChild (by simp)).trans (Frames.setParentColor (by simp)))

theorem Holds.freshLeaf (h : Holds t (plug ctx leaf)) (hx : x ≠ null ∧ x ≠ t.nil ∧ Aligned x)
    (hlabel : x ∉ labels ctx) :
    Holds ((t.freshLeaf x (ctxParent t.nil ctx)).setHole ctx x) (plug ctx (node .red leaf x leaf)) := by
  obtain ⟨hnil, hctx, -, hnodup⟩ := holds_plug.1 h
  have hpar := hctx.parent_aligned hnil
  have hnc := (nodup_plug.1 hnodup).2.1
  have hnilc : t.nil ∉ labels ctx := fun hl => (hctx.of_mem hl).2.1 rfl
  have hfresh : ∀ {l : List Addr}, x ∉ l → Agree t (t.freshLeaf x (ctxParent t.nil ctx)) l :=
    fun hl => Frames.freshLeaf.agree_of_not_mem hl
  have hnil' : ((t.freshLeaf x (ctxParent t.nil ctx)).setHole ctx x).nil = t.nil := by
    simp [Bst.freshLeaf]
  rw [holds_plug]
  refine ⟨(hnil.congr (hfresh (by simpa using hx.2.1))).congr (Frames.setHole.agree ?_), ?_,
    ⟨⟨hx.1, ?_, hx.2.2, ?_, ?_, ?_, ?_⟩, trivial, trivial⟩, ?_⟩
  · simpa [Bst.freshLeaf] using hnilc
  · exact (hctx.congr (hfresh hlabel) rfl).setHole hnc
  · rw [hnil']
    exact hx.2.1
  · rw [Bst.setHole_color, Bst.freshLeaf, Bst.setParentColor_color, if_pos rfl]
    exact tag_or hpar (isTag_word .red)
  · rw [Bst.setHole_parent, hnil', Bst.freshLeaf, Bst.setParentColor_parent, if_pos rfl]
    exact address_or hpar (isTag_word .red)
  · rw [Bst.setHole_child hlabel, hnil']
    simp [Bst.freshLeaf, Bst.setChild_child]
  · rw [Bst.setHole_child hlabel, hnil']
    simp [Bst.freshLeaf, Dir.other]
  · rw [nodup_plug]
    refine ⟨by simp, hnc, ?_⟩
    intro q hq
    simp only [toList_node, toList_leaf, List.nil_append, List.mem_singleton] at hq
    rwa [hq]

variable [Build]

/-- Colouring the parent black and the grandparent red, and rotating the grandparent down. -/
theorem insertRotateTail_spec {cy cz : Color} {z : Addr}
    (h : Holds t (plug ctx (dnode d cz (dnode d cy s y b) z e))) :
    Returns (do
      bstSetColor y bstBlack
      bstSetColor z bstRed
      bstRotate d.other z) t fun _ t' =>
      Holds t' (plug ctx (dnode d .black s y (dnode d .red b z e))) ∧
        Frames t t' (plug ctx (dnode d cz (dnode d cy s y b) z e)).toList := by
  have hy : Holds t (plug (⟨d, cz, z, e⟩ :: ctx) (dnode d cy s y b)) := h
  have hz := hy.frame
  have hyne := hy.focus_ne_null
  rw [ptr_dnode] at hyne
  have hblack := hy.setColor .black
  have houter : Holds (t.setColor y bstBlack) (plug ctx (dnode d cz (dnode d .black s y b) z e)) := hblack
  have hboth := houter.setColor .red
  rw [returns_bind, returns_bstSetColor, returns_bind, returns_bstSetColor]
  refine ⟨hyne, by simp, hz.ne_null, by simp, ?_⟩
  have hrot : Holds ((t.setColor y (Color.word .black)).setColor z (Color.word .red))
      (plug ctx (dnode d.other .red e z (dnode d.other .black b y s))) := by
    rw [dnode_other, dnode_other]
    exact hboth
  refine (bstRotate_spec hrot).mono fun _ t' ht' => ?_
  rw [dnode_other, dnode_other, dnode_other, dnode_other] at ht'
  refine ⟨ht'.1, (Frames.setColor ?_).trans <| (Frames.setColor ?_).trans (ht'.2.subset ?_)⟩
  · simp [mem_plug]
  · simp [mem_plug]
  · intro q hq
    simpa [mem_plug] using hq

/-- The last round: one or two rotations. -/
theorem bstFixupInsertRotate_spec (h : Holds t (plug (f :: g :: ctx) s)) (hs : s ≠ leaf)
    (hf : f.color = .red) (hg : g.sib.color = .black) :
    Returns (bstFixupInsertRotate g.dir (ptr t.nil s) f.key g.key) t fun _ t' =>
      ∃ T, InsFix (f :: g :: ctx) s T ∧ Holds t' T ∧ Frames t t' (plug (f :: g :: ctx) s).toList := by
  have hfnull := h.frame.ne_null
  have hside := h.child_eq_iff (d := g.dir.other) (Or.inl hs)
  obtain ⟨fd, fc, y, b⟩ := f
  obtain ⟨d, gc, z, e⟩ := g
  simp only [bstFixupInsertRotate, returns_bind, returns_readChild, returns_ite]
  by_cases hdir : fd = d
  · -- The node and its parent hang on the same side.
    subst hdir
    refine ⟨hfnull, fun hin => absurd (hside.1 hin) (Dir.other_ne fd), fun _ => ?_⟩
    rw [returns_pure]
    have hlower : Holds t (plug ctx (dnode fd gc (dnode fd fc s y b) z e)) := h
    have htail := (insertRotateTail_spec hlower).mono (R := fun _ t' => ∃ T,
      InsFix (⟨fd, fc, y, b⟩ :: ⟨fd, gc, z, e⟩ :: ctx) s T ∧ Holds t' T ∧
        Frames t t' (plug (⟨fd, fc, y, b⟩ :: ⟨fd, gc, z, e⟩ :: ctx) s).toList)
      fun _ t' ht' => ⟨_, InsFix.outer _ _ ctx s hf hg rfl, ht'⟩
    simpa only [returns_bind] using htail
  · -- The node is between its parent and its grandparent: it is rotated over the parent first.
    obtain rfl : fd = d.other := by cases d <;> cases fd <;> simp_all [Dir.other]
    obtain ⟨c, a, x, a', rfl⟩ := RBTree.exists_dnode_of_ne d hs
    refine ⟨hfnull, fun _ => ?_, fun hout => absurd (hside.2 rfl) hout⟩
    have htree : Holds t (plug (⟨d, gc, z, e⟩ :: ctx) (dnode d fc b y (dnode d c a x a'))) := by
      have h' : Holds t (plug (⟨d, gc, z, e⟩ :: ctx) (dnode d.other fc (dnode d c a x a') y b)) := h
      rwa [dnode_other] at h'
    refine (bstRotate_spec htree).mono fun _ t₁ ht₁ => ?_
    obtain ⟨h₁, hframe₁⟩ := ht₁
    obtain ⟨-, -, hlinked, -⟩ := holds_plug.1 h₁
    obtain ⟨-, hleft, -⟩ := linked_dnode.1 hlinked
    have hpar : t₁.parent y = x := (linked_dnode.1 hleft).1.parent
    rw [returns_bstParent, hpar]
    have hfc : fc = .red := hf
    subst hfc
    have hlower : Holds t₁ (plug ctx (dnode d gc (dnode d c (dnode d .red b y a) x a') z e)) := h₁
    have htail := (insertRotateTail_spec hlower).mono (R := fun _ t' => ∃ T,
      InsFix (⟨d.other, .red, y, b⟩ :: ⟨d, gc, z, e⟩ :: ctx) (dnode d c a x a') T ∧ Holds t' T ∧
        Frames t t' (plug (⟨d.other, .red, y, b⟩ :: ⟨d, gc, z, e⟩ :: ctx) (dnode d c a x a')).toList)
      fun _ t' ht' => ⟨_, InsFix.inner _ _ ctx c a a' x rfl hg rfl, ht'.1, ?_⟩
    · exact ⟨hfnull, by simpa only [returns_bind] using htail⟩
    · refine (hframe₁.subset fun q hq => ?_).trans (ht'.2.subset fun q hq => ?_)
      · simp only [mem_plug, plug_cons, mem_fill, mem_dnode] at hq ⊢
        tauto
      · simp only [mem_plug, plug_cons, mem_fill, mem_dnode] at hq ⊢
        tauto

theorem bstFixupInsertLoop_spec {n : Nat} (h : Holds t (plug ctx s)) (hs : s ≠ leaf)
    (hroot : RootBlack ctx) (hn : ctx.length ≤ n) :
    Returns (bstFixupInsertLoop n (ptr t.nil s)) t fun _ t' =>
      ∃ T, InsFix ctx s T ∧ Holds t' T ∧ Frames t t' (plug ctx s).toList := by
  induction n generalizing t ctx s with
  | zero =>
      obtain rfl : ctx = [] := List.length_eq_zero_iff.1 (Nat.le_zero.1 hn)
      have hpar := h.parent_focus hs
      rw [ctxParent_nil] at hpar
      simp only [bstFixupInsertLoop, returns_bind, returns_bstParent, returns_bstColor, returns_ite, hpar,
        h.nilOk.color, returns_pure]
      refine ⟨h.focus_ne_null, h.nilOk.ne_null, fun hred => absurd hred (by decide), fun _ => ?_⟩
      exact ⟨s, InsFix.root s, h, Frames.refl⟩
  | succ n ih =>
      have hpar := h.parent_focus hs
      have hsnull := h.focus_ne_null
      simp only [bstFixupInsertLoop, returns_bind, returns_bstParent, returns_bstColor, returns_ite, hpar]
      cases ctx with
      | nil =>
          rw [ctxParent_nil, h.nilOk.color, returns_pure]
          refine ⟨hsnull, h.nilOk.ne_null, fun hred => absurd hred (by decide), fun _ => ?_⟩
          exact ⟨s, InsFix.root s, h, Frames.refl⟩
      | cons f ctx =>
          have hf := h.frame
          rw [ctxParent_cons, hf.color, Color.word_red_iff]
          refine ⟨hsnull, hf.ne_null, fun hred => ?_, fun hblack => ?_⟩
          · cases ctx with
            | nil =>
                have hroot' : f.color = .black := hroot
                rw [hroot'] at hred
                cases hred
            | cons g ctx =>
                have hg := (show Holds t (plug (g :: ctx) (f.fill s)) from h).frame
                have hgf := (show Holds t (plug (g :: ctx) (f.fill s)) from h).child_eq_iff (d := .left)
                  (Or.inl (by cases hd : f.dir <;> simp [Frame.fill, dnode, hd]))
                have hgpar : t.parent f.key = g.key := hf.parent
                have hsib : Holds t (plug (⟨g.dir.other, g.color, g.key, f.fill s⟩ :: ctx) g.sib) := by
                  rw [plug_flip, Dir.other_other]
                  exact h
                have hsibnull := hsib.focus_ne_null
                have hsibcolor := hsib.color_focus
                have hside : (if f.key = t.child .left g.key then Dir.left else Dir.right) = g.dir := by
                  rw [show f.key = ptr t.nil (f.fill s) from (ptr_dnode).symm]
                  by_cases hleft : Dir.left = g.dir
                  · rw [if_pos (hgf.2 hleft), hleft]
                  · rw [if_neg fun hin => hleft (hgf.1 hin)]
                    cases hd : g.dir with
                    | left => exact absurd hd.symm hleft
                    | right => rfl
                simp only [returns_get, returns_assert, hgpar, returns_readLeft, returns_readChild, hside,
                  hg.far]
                refine ⟨hsnull, hf.ne_null, fun _ => by simpa using hg.ne_nil, hg.ne_null, hg.ne_null,
                  hsibnull, fun huncle => ?_, fun huncle => ?_⟩
                · rw [hsibcolor, Color.word_red_iff] at huncle
                  have hsibin : ptr t.nil g.sib ∈ g.sib.toList := by
                    cases hsib : g.sib with
                    | leaf =>
                        rw [hsib] at huncle
                        cases huncle
                    | node c l x r => simp
                  simp only [returns_bstSetColor]
                  refine ⟨hf.ne_null, by simp, hsibnull, by simp, hg.ne_null, by simp, ?_⟩
                  have hrec := h.recolored
                  have hnext := ih hrec (by cases hd : g.dir <;> simp [dnode]) hroot.tail.tail
                    (by simp only [List.length_cons] at hn; omega)
                  rw [ptr_dnode] at hnext
                  refine hnext.mono fun _ t' ht' => ?_
                  obtain ⟨T, hT, hholds, hframe⟩ := ht'
                  refine ⟨T, InsFix.recolor f g ctx s T hred huncle hT, hholds, ?_⟩
                  have hin : ∀ q, q = f.key ∨ q = g.key ∨ q ∈ g.sib.toList →
                      q ∈ (plug (f :: g :: ctx) s).toList := by
                    intro q hq
                    simp only [mem_plug, labels_cons, List.mem_cons, List.mem_append]
                    tauto
                  refine (Frames.setColor (hin _ (Or.inl rfl))).trans <|
                    (Frames.setColor (hin _ (Or.inr (Or.inr hsibin)))).trans <|
                    (Frames.setColor (hin _ (Or.inr (Or.inl rfl)))).trans (hframe.subset fun q hq => ?_)
                  simp only [mem_plug, plug_cons, mem_fill, mem_dnode, toList_blacken] at hq ⊢
                  tauto
                · rw [hsibcolor, Color.word_red_iff] at huncle
                  refine bstFixupInsertRotate_spec h hs hred ?_
                  cases hc : g.sib.color with
                  | black => rfl
                  | red => exact absurd hc huncle
          · rw [returns_pure]
            refine ⟨_, InsFix.done f ctx s ?_, h, Frames.refl⟩
            cases hc : f.color with
            | black => rfl
            | red => exact absurd hc hblack

theorem bstFixupInsert_spec (h : Holds t (plug ctx (node .red leaf x leaf))) (hroot : RootBlack ctx) :
    Returns (bstFixupInsert x) t fun _ t' => ∃ T, InsFix ctx (node .red leaf x leaf) T ∧
      Holds t' T.blacken ∧ Frames t t' (plug ctx (node .red leaf x leaf)).toList := by
  have hx := h.of_mem (x := x) (by simp [mem_plug])
  have htree := h.root_ne_nil (x := x) (by simp [mem_plug])
  have hcolor := h.color_focus
  rw [ptr_node, color_node] at hcolor
  have hlen : ctx.length ≤ loopBound := by
    have hlabels := (nodup_plug.1 h.nodup).2.1
    exact (length_le_length_labels ctx).trans (length_le_loopBound hlabels)
  simp only [bstFixupInsert, returns_bind, returns_get, returns_assert, returns_bstColor, hcolor]
  refine ⟨fun _ => by simpa using hx.2.1, fun _ => by simpa using htree, hx.1, fun _ => by simp, ?_⟩
  refine (bstFixupInsertLoop_spec h (by simp) hroot hlen).mono fun _ t₁ ht₁ => ?_
  obtain ⟨T, hT, hholds, hframe⟩ := ht₁
  have hmem : x ∈ T.toList := by
    rw [hT.toList]
    simp [mem_plug]
  rw [returns_bstSetColor]
  have hptr := hholds.root
  have hfocus : Holds _ (plug [] T) := hholds
  refine ⟨?_, by simp, T, hT, ?_, hframe.trans (Frames.setColor ?_)⟩
  · rw [hptr]
    exact hfocus.focus_ne_null
  · rw [hptr]
    exact hfocus.blacken
  · rw [← hT.toList, hptr]
    exact ptr_mem (hptr ▸ hholds.root_ne_nil hmem)

/-! ### Hanging a new leaf into the tree -/

/-- The location `bst_find` reports for the hole inside the frames `ctx`. -/
structure LocationAt (nil : Addr) (ctx : List (Frame Addr)) (location : BstLocation) : Prop where
  node : location.node = nil
  parent : location.parent = ctxParent nil ctx
  side : ∀ f rest, ctx = f :: rest →
    location.parentCmp ≠ 0 ∧ (location.parentCmp = -1 ↔ f.dir = .left)

theorem bstInsert_spec {location : BstLocation} (h : Holds t (plug ctx leaf))
    (hx : x ≠ null ∧ x ≠ t.nil ∧ Aligned x) (hlabel : x ∉ labels ctx) (hroot : RootBlack ctx)
    (hloc : LocationAt t.nil ctx location) :
    Returns (bstInsert x location) t fun _ t' => ∃ T, InsFix ctx (node .red leaf x leaf) T ∧
      Holds t' T.blacken ∧ Frames t t' (x :: labels ctx) := by
  have hholds := h.freshLeaf hx hlabel
  have hpost := (bstFixupInsert_spec hholds hroot).mono (R := fun _ t' => ∃ T,
    InsFix ctx (node .red leaf x leaf) T ∧ Holds t' T.blacken ∧ Frames t t' (x :: labels ctx)) ?_
  · obtain ⟨hnil, hctx, -, -⟩ := holds_plug.1 h
    have hparnull := hctx.parent_ne_null hnil
    simp only [bstInsert, returns_bind, returns_get, returns_assert, hloc.node, hloc.parent,
      returns_writeLeft, returns_writeRight, returns_bstSetParentColor, returns_ite, returns_writeRoot]
    refine ⟨fun _ => by simp, hx.1, hx.1, hx.1, fun _ => hparnull, by simp, ?_, ?_⟩
    · intro hparnil
      cases ctx with
      | nil =>
          have hempty : t.root = t.nil := hctx
          exact ⟨fun _ => by simpa using hempty, hpost⟩
      | cons f ctx => exact absurd hparnil hctx.1.ne_nil
    · intro hparnil
      cases ctx with
      | nil => exact absurd rfl hparnil
      | cons f ctx =>
          obtain ⟨hcmp, hside⟩ := hloc.side f ctx rfl
          rw [Bst.setHole] at hpost
          refine ⟨fun _ => by simpa using hcmp, fun hleft => ⟨hparnull, ?_⟩, fun hright => ⟨hparnull, ?_⟩⟩
          · rwa [hside.1 hleft] at hpost
          · have hdir : f.dir = .right := by
              cases hd : f.dir with
              | left => exact absurd (hside.2 hd) hright
              | right => rfl
            rwa [hdir] at hpost
  · intro _ t' ht'
    obtain ⟨T, hT, hholds', hframe⟩ := ht'
    refine ⟨T, hT, hholds', ?_⟩
    refine (Frames.freshLeaf.subset ?_).trans ((Frames.setHole.subset ?_).trans (hframe.subset ?_))
    · simp
    · simp +contextual
    · intro q hq
      simpa [mem_plug] using hq

end

end Jcl
