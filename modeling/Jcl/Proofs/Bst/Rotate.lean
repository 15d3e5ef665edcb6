/-
Module: Jcl.Proofs.Bst.Rotate
Layer: Proofs
Purpose: What the functions that recolour and rotate do to the search tree in memory. Each rule is stated around the
  node the function works on, for both sides at once.
Imports: Jcl.Proofs.Bst.Linked
Trusted boundary: none (fully proved)
Main exports: Holds.setColor, Bst.rotated, Holds.rotated, returns_bstReplaceChild, bstRotate_spec
-/
import Jcl.Proofs.Bst.Linked

namespace Jcl

open RedBlack RedBlack.RBTree TaggedWord

section

variable {K V : Type} {t t' : Bst K V} {d : Dir} {c : Color} {p q x y par : Addr}
  {a b e s T : RBTree Addr} {ctx : List (Frame Addr)}

/-- The node at the focus takes another colour. -/
theorem Holds.setColor (h : Holds t (plug ctx (dnode d c a x b))) (c' : Color) :
    Holds (t.setColor x (Color.word c')) (plug ctx (dnode d c' a x b)) := by
  obtain ⟨hnil, hctx, hs, hnodup⟩ := holds_plug.1 h
  obtain ⟨hx, ha, hb⟩ := linked_dnode.1 hs
  have hmem := nodup_plug.1 hnodup
  have hin := nodup_dnode.1 hmem.1
  rw [holds_plug]
  refine ⟨hnil.congr (Agree.setColor ?_), ?_, ?_, ?_⟩
  · simpa using hx.ne_nil
  · rw [ptr_dnode]
    rw [ptr_dnode] at hctx
    exact hctx.congr (Agree.setColor fun hl => hmem.2.2 (by simp) hl) rfl
  · rw [linked_dnode]
    refine ⟨⟨hx.ne_null, hx.ne_nil, hx.aligned, ?_, ?_, ?_, ?_⟩, ha.congr (Agree.setColor hin.1),
      hb.congr (Agree.setColor hin.2.1)⟩
    · rw [Bst.setColor_color (isTag_word c'), if_pos rfl]
    · rw [Bst.setColor_parent (isTag_word c')]
      exact hx.parent
    · rw [Bst.setColor_child]
      exact hx.near
    · rw [Bst.setColor_child]
      exact hx.far
  · rw [nodup_plug, nodup_dnode]
    exact ⟨hin, hmem.2.1, fun y hy hl => hmem.2.2 (by simpa using hy) hl⟩

theorem Holds.setColor_frame {k : Addr} {sib : RBTree Addr}
    (h : Holds t (plug (⟨d, c, k, sib⟩ :: ctx) s)) (c' : Color) :
    Holds (t.setColor k (Color.word c')) (plug (⟨d, c', k, sib⟩ :: ctx) s) :=
  (show Holds t (plug ctx (dnode d c s k sib)) from h).setColor c'

theorem Holds.setColor_sib {k : Addr} {d' : Dir} {cy : Color}
    (h : Holds t (plug (⟨d, c, k, dnode d' cy a y b⟩ :: ctx) s)) (c' : Color) :
    Holds (t.setColor y (Color.word c')) (plug (⟨d, c, k, dnode d' c' a y b⟩ :: ctx) s) := by
  rw [plug_flip] at h ⊢
  exact h.setColor c'

/-- Colouring the focus black, whether it is a node or the sentinel. -/
theorem Holds.blacken (h : Holds t (plug ctx s)) :
    Holds (t.setColor (ptr t.nil s) bstBlack) (plug ctx s.blacken) := by
  cases s with
  | leaf =>
      rw [ptr_leaf, Bst.setColor_same h.nilOk.color]
      exact h
  | node c l x r => exact Holds.setColor (d := .left) h .black

section

variable {cx cy : Color}

/-- The memory after a rotation. -/
def Bst.rotated (t : Bst K V) (d : Dir) (ctx : List (Frame Addr)) (x y : Addr) (b : RBTree Addr) :
    Bst K V :=
  (((((t.setChild d.other x (ptr t.nil b)).adopt (ptr t.nil b) x).setParent y (ctxParent t.nil ctx)).setHole
    ctx y).setChild d y x).setParent x y

theorem Frames.rotated :
    Frames t (t.rotated d ctx x y b) (x :: y :: (b.toList ++ labels ctx)) := by
  have hb : ptr t.nil b ≠ t.nil → ptr t.nil b ∈ x :: y :: (b.toList ++ labels ctx) := by
    intro hne
    simp [ptr_mem hne]
  have hhole := (@Frames.setHole K V ((((t.setChild d.other x (ptr t.nil b)).adopt (ptr t.nil b)
    x).setParent y (ctxParent t.nil ctx))) y ctx).subset
      (fun q hq => show q ∈ x :: y :: (b.toList ++ labels ctx) by simp [hq])
  have hx : x ∈ x :: y :: (b.toList ++ labels ctx) := by simp
  have hy : y ∈ x :: y :: (b.toList ++ labels ctx) := by simp
  have hadopt : Frames (t.setChild d.other x (ptr t.nil b)) ((t.setChild d.other x (ptr t.nil b)).adopt
      (ptr t.nil b) x) (x :: y :: (b.toList ++ labels ctx)) := by
    apply Frames.adopt
    rwa [Bst.setChild_nil]
  exact (Frames.setChild hx).trans <| hadopt.trans <| (Frames.setParent hy).trans <|
    hhole.trans <| (Frames.setChild hy).trans (Frames.setParent hx)

theorem Holds.rotated (h : Holds t (plug ctx (dnode d cx a x (dnode d cy b y e)))) :
    Holds (t.rotated d ctx x y b) (plug ctx (dnode d cy (dnode d cx a x b) y e)) := by
  obtain ⟨hnil, hctx, hs, hnodup⟩ := holds_plug.1 h
  obtain ⟨hx, ha, hyl⟩ := linked_dnode.1 hs
  obtain ⟨hy, hb, he⟩ := linked_dnode.1 hyl
  have hmem := nodup_plug.1 hnodup
  simp only [nodup_dnode, mem_dnode, not_or, List.Disjoint] at hmem
  obtain ⟨⟨hxa, ⟨hxy, hxb, hxe⟩, hna, ⟨hyb, hye, hnb, hne, hbe⟩, hays⟩, hnc, hcs⟩ := hmem
  have hagree : ∀ {l : List Addr}, x ∉ l → y ∉ l → l.Disjoint b.toList → l.Disjoint (labels ctx) →
      Agree t (t.rotated d ctx x y b) l := by
    intro l hxl hyl hbl hcl
    apply Frames.rotated.agree
    intro q hq hmem
    simp only [List.mem_cons, List.mem_append] at hmem
    rcases hmem with rfl | rfl | hqb | hqc
    · exact hxl hq
    · exact hyl hq
    · exact hbl hq hqb
    · exact hcl hq hqc
  have hparx := hctx.parent_aligned hnil
  have hcx : x ∉ labels ctx := fun hl => hcs (by simp) hl
  have hcy : y ∉ labels ctx := fun hl => hcs (by simp) hl
  have hbx : x ≠ ptr t.nil b := by
    intro hxb'
    rw [hxb'] at hxb
    exact hxb (ptr_mem fun hnilb => hx.ne_nil (hxb'.trans hnilb))
  have hby : y ≠ ptr t.nil b := by
    intro hyb'
    rw [hyb'] at hyb
    exact hyb (ptr_mem fun hnilb => hy.ne_nil (hyb'.trans hnilb))
  have hrnil : (t.rotated d ctx x y b).nil = t.nil := by simp [Bst.rotated]
  have hcolor : (t.rotated d ctx x y b).color = t.color := by
    simp [Bst.rotated, Bst.setParent_color, Bst.adopt_color, hparx, hx.aligned, hy.aligned]
  have hparent_x : (t.rotated d ctx x y b).parent x = y := by
    simp [Bst.rotated, Bst.setParent_parent, hy.aligned]
  have hparent_y : (t.rotated d ctx x y b).parent y = ctxParent t.nil ctx := by
    simp [Bst.rotated, Bst.setParent_parent, hy.aligned, hparx, Ne.symm hxy]
  have hchild_x : ∀ d', (t.rotated d ctx x y b).child d' x = (t.setChild d.other x (ptr t.nil b)).child d' x := by
    intro d'
    simp [Bst.rotated, Bst.setChild_child_of_ne, Bst.setHole_child, hxy, hcx]
  have hchild_y : ∀ d', (t.rotated d ctx x y b).child d' y = (t.setChild d y x).child d' y := by
    intro d'
    simp [Bst.rotated, Bst.setChild_child, Bst.setHole_child, Ne.symm hxy, hcy]
  rw [holds_plug]
  refine ⟨hnil.congr (hagree ?_ ?_ ?_ ?_), ?_, ?_, ?_⟩
  · simpa using hx.ne_nil
  · simpa using hy.ne_nil
  · simpa using fun hmem => (hb.of_mem hmem).2.1 rfl
  · simpa using fun hmem => (hctx.of_mem hmem).2.1 rfl
  · rw [ptr_dnode]
    rw [ptr_dnode] at hctx
    have hadopt : Frames (t.setChild d.other x (ptr t.nil b)) ((t.setChild d.other x (ptr t.nil b)).adopt
        (ptr t.nil b) x) b.toList := Frames.adopt fun hne => ptr_mem (by simpa using hne)
    have hbefore : Agree t (((t.setChild d.other x (ptr t.nil b)).adopt (ptr t.nil b) x).setParent y
        (ctxParent t.nil ctx)) (labels ctx) :=
      (Agree.setChild hcx).trans <|
        (hadopt.agree fun q hq hqb => hcs (by simp [hqb]) hq).trans (Agree.setParent hcy)
    exact ((hctx.congr hbefore (by simp)).setHole hnc).congr
      ((Agree.setChild hcy).trans (Agree.setParent hcx)) Bst.setChild_root
  · rw [linked_dnode, linked_dnode]
    refine ⟨⟨hy.ne_null, ?_, hy.aligned, ?_, ?_, ?_, ?_⟩,
      ⟨⟨hx.ne_null, ?_, hx.aligned, ?_, hparent_x, ?_, ?_⟩, ?_, ?_⟩, ?_⟩
    · rw [hrnil]
      exact hy.ne_nil
    · rw [hcolor]
      exact hy.color
    · rw [hrnil]
      exact hparent_y
    · rw [hchild_y, Bst.setChild_child_same, ptr_dnode]
    · rw [hchild_y, Bst.setChild_child_other_side, hrnil]
      exact hy.far
    · rw [hrnil]
      exact hx.ne_nil
    · rw [hcolor]
      exact hx.color
    · rw [hchild_x, Bst.setChild_other_child, hrnil]
      exact hx.near
    · rw [hchild_x, Bst.setChild_child_same, hrnil]
    · exact ha.congr (hagree hxa (fun hya => hays hya (by simp)) (fun q hq hqb => hays hq (by simp [hqb]))
        fun q hq => hcs (by simp [hq]))
    · have hbx' : Linked ((t.setChild d.other x (ptr t.nil b)).adopt (ptr t.nil b) x) b x := by
        simpa using (hb.congr (Agree.setChild hxb)).adopt hnb hx.aligned
      refine hbx'.congr ((Agree.setParent hyb).trans <| (Frames.setHole.agree ?_).trans <|
        (Agree.setChild hyb).trans (Agree.setParent hxb))
      exact fun q hq => hcs (by simp [hq])
    · exact he.congr (hagree hxe hye (fun q hq hqb => hbe hqb hq) fun q hq => hcs (by simp [hq]))
  · rw [nodup_plug]
    simp only [nodup_dnode, mem_dnode, not_or, List.Disjoint]
    grind

end

/-- Storing an address in place of the focus. -/
theorem returns_bstReplaceChild {Q : Unit → Bst K V → Prop} (hctx : CtxLinked t ctx x)
    (hx : x ≠ t.nil) (hlabel : x ∉ labels ctx) :
    Returns (bstReplaceChild (ctxParent t.nil ctx) x y) t Q ↔ Q () (t.setHole ctx y) := by
  cases ctx with
  | nil => simp [bstReplaceChild, Bst.setHole]
  | cons f ctx =>
      obtain ⟨hf, hsib, -⟩ := hctx
      have hsibx : ptr t.nil f.sib ≠ x := by
        intro h
        rw [← h] at hlabel
        exact hlabel (by simp [ptr_mem (h ▸ hx)])
      simp only [bstReplaceChild, ctxParent_cons, returns_bind, returns_get, hf.ne_nil, if_false,
        returns_readLeft, returns_ite, returns_writeLeft, returns_writeRight, Bst.setHole]
      cases hd : f.dir with
      | left =>
          rw [← hd, hf.near, hd]
          simp [hf.ne_null]
      | right =>
          have hleft : t.child .left f.key = ptr t.nil f.sib := by
            have := hf.far
            rwa [hd] at this
          rw [hleft]
          simp [hf.ne_null, hsibx.symm]

variable [Build]

theorem bstRotate_spec {cx cy : Color}
    (h : Holds t (plug ctx (dnode d cx a x (dnode d cy b y e)))) :
    Returns (bstRotate d x) t fun _ t' =>
      Holds t' (plug ctx (dnode d cy (dnode d cx a x b) y e)) ∧
        Frames t t' (plug ctx (dnode d cx a x (dnode d cy b y e))).toList := by
  obtain ⟨hnil, hctx, hs, hnodup⟩ := holds_plug.1 h
  obtain ⟨hx, ha, hyl⟩ := linked_dnode.1 hs
  obtain ⟨hy, hb, he⟩ := linked_dnode.1 hyl
  have hfar : t.child d.other x = y := by simpa using hx.far
  have hnear : t.child d y = ptr t.nil b := hy.near
  have hparent : t.parent x = ctxParent t.nil ctx := hx.parent
  have hcx : x ∉ labels ctx := fun hl => (nodup_plug.1 hnodup).2.2 (by simp) hl
  have hyx : y ≠ x := fun hyx => (nodup_dnode.1 (nodup_plug.1 hnodup).1).2.1 (by simp [hyx])
  have hmoved : Frames t (((t.setChild d.other x (ptr t.nil b)).adopt (ptr t.nil b) x).setParent y
      (ctxParent t.nil ctx)) (x :: y :: b.toList) := by
    refine (Frames.setChild (by simp)).trans ((Frames.adopt ?_).trans (Frames.setParent (by simp)))
    intro hne
    simp [ptr_mem (by simpa using hne)]
  -- The hole is where it was when the child is stored in it.
  have hhole : CtxLinked (((t.setChild d.other x (ptr t.nil b)).adopt (ptr t.nil b) x).setParent y
      (ctxParent t.nil ctx)) ctx x := by
    rw [ptr_dnode] at hctx
    refine hctx.congr (hmoved.agree fun q hq hqx => ?_) (by simp)
    refine (nodup_plug.1 hnodup).2.2 ?_ hq
    simp only [List.mem_cons] at hqx
    simp only [mem_dnode]
    tauto
  have hrun := (returns_bstReplaceChild hhole (by simpa using hx.ne_nil) hcx
    (Q := fun _ s' => Holds ((s'.setChild d y x).setParent x y)
      (plug ctx (dnode d cy (dnode d cx a x b) y e)) ∧ Frames t ((s'.setChild d y x).setParent x y)
        (plug ctx (dnode d cx a x (dnode d cy b y e))).toList) (y := y)).2
    ⟨h.rotated, Frames.rotated.subset ?_⟩
  · simp only [bstRotate, returns_bind, returns_get, returns_assert, returns_readChild, returns_bstParent,
      returns_writeChild, returns_ite, returns_bstSetParent, hfar, hnear, hparent,
      Bst.setChild_other_child]
    have hxnull := hx.ne_null
    have hynull := hy.ne_null
    have hbnull := hb.ptr_ne_null hnil
    have hparnull := hctx.parent_ne_null hnil
    have hynil : y ≠ t.nil := hy.ne_nil
    simp only [ne_eq, hxnull, hynull, hbnull, hparnull, hx.ne_nil, hynil, not_false_eq_true, decide_true,
      implies_true, true_and]
    constructor
    · intro hbnil
      simpa [Bst.adopt, hbnil] using hrun
    · intro hbnil
      simpa [Bst.adopt, not_not.1 hbnil] using hrun
  · intro q hq
    rw [mem_plug]
    simp only [List.mem_cons, List.mem_append] at hq
    simp only [mem_dnode]
    tauto

end

end Jcl
