/-
Module: Jcl.Proofs.Bst.Rewrites
Layer: Proofs
Purpose: What a call does to the words of the nodes, said once for all calls: a slot goes onto a chain or comes off it,
  a slot becomes a node of the tree, or a node is taken out. In the last two cases the new tree is a repair of the old
  one, and no other words change.
Imports: Jcl.Lib.Keeps, Jcl.Lib.RedBlack.Rewiring, Jcl.Proofs.Bst.Multimap, Jcl.Proofs.Bst.NodeBytes
Trusted boundary: none (fully proved)
Main exports: Bst.uncached, Rewrites, bstDelete_removes, BstInv.rewrites
-/
import Jcl.Lib.Keeps
import Jcl.Lib.RedBlack.Rewiring
import Jcl.Proofs.Bst.Multimap
import Jcl.Proofs.Bst.NodeBytes

namespace Jcl

open RedBlack RedBlack.RBTree TaggedWord

section

variable {K V O : Type} [LinearOrder O] {t t' t'' : Bst K V} {cmp : K → V → Int} {rk : K → O} {rv : V → O}
  {key : K} {value v : V} {err err' : JclErr} {T T' s l r : RBTree Addr} {b p q x : Addr} {slots : List Addr}
  {c : Color} {d : Dir} {ctx : List (RedBlack.Frame Addr)} {chains : Addr → List Addr} {w : UInt64}

/-- What a change of the cache or of the free list's record does not touch. -/
def Bst.uncached (t : Bst K V) : NodeMemory V × Addr × Addr × UInt64 := (t.mem, t.nil, t.root, t.valueOffset)

theorem Bst.uncached_eq_iff : t'.uncached = t.uncached ↔
    t'.mem = t.mem ∧ t'.nil = t.nil ∧ t'.root = t.root ∧ t'.valueOffset = t.valueOffset := by
  simp [Bst.uncached]

theorem Holds.of_uncached (h : Holds t T) (hsame : t'.uncached = t.uncached) : Holds t' T := by
  obtain ⟨hmem, hnil, hroot, -⟩ := Bst.uncached_eq_iff.1 hsame
  refine h.congr ⟨hnil, fun q _ => ?_⟩ hroot
  rw [hmem]
  exact ⟨rfl, rfl, rfl⟩

/-- The record after a slot was given back. -/
def Bst.freed (t : Bst K V) (x : Addr) (w : UInt64) : Bst K V := { t with mem := t.mem.setField x w .parentColor }

theorem Holds.freed (h : Holds t T) (hx : x ∉ t.nil :: T.toList) : Holds (t.freed x w) T := by
  refine h.congr ⟨rfl, fun q hq => ⟨?_, rfl, rfl⟩⟩ rfl
  have hne : q ≠ x := fun heq => hx (heq ▸ hq)
  exact Function.update_of_ne hne _ _

theorem Bst.uncached_freed (h : t'.uncached = t.uncached) : (t'.freed x w).uncached = (t.freed x w).uncached := by
  obtain ⟨hmem, hnil, hroot, hoff⟩ := Bst.uncached_eq_iff.1 h
  simp [Bst.uncached, Bst.freed, hmem, hnil, hroot, hoff]

/-- The words of the nodes after a call, which makes a tree out of `T`. -/
inductive Rewrites (slots : List Addr) (t t' : Bst K V) (T : RBTree Addr) : RBTree Addr → Prop where
  | same (h : t'.uncached = t.uncached) : Rewrites slots t t' T T
  | attached (b x : Addr) (v : V) (hb : b ∈ slots) (hx : x ∈ slots)
      (h : t'.uncached = ((t.packed x v).attached b x).uncached) : Rewrites slots t t' T T
  | inserted (ctx : List (RedBlack.Frame Addr)) (x : Addr) (v : V) (T₀ : RBTree Addr) (t₀ t₁ : Bst K V)
      (hx : x ∈ slots) (hT : T = plug ctx leaf) (hfix : InsFix ctx (node .red leaf x leaf) T₀)
      (h₀ : t₀.uncached = (t.packed x v).uncached) (hframe : Frames t₀ t₁ (x :: labels ctx))
      (h : t'.uncached = t₁.uncached) : Rewrites slots t t' T T₀.blacken
  | detached (b x : Addr) (w : UInt64) (hb : b ∈ slots) (hx : x ∈ slots)
      (h : t'.uncached = ((t.detached b).freed x w).uncached) : Rewrites slots t t' T T
  | removed (ctx : List (RedBlack.Frame Addr)) (c : Color) (l r : RBTree Addr) (x : Addr) (T' : RBTree Addr)
      (t₁ : Bst K V) (w : UInt64) (hx : x ∈ slots) (hT : T = plug ctx (node c l x r))
      (hremoval : Removal ctx c l x r T') (hframe : Frames t t₁ (t.nil :: T.toList))
      (h : t'.uncached = (t₁.freed x w).uncached) : Rewrites slots t t' T T'

/-! ### The cache updates -/

theorem keeps_deref {γ : Type} {f : Bst K V → γ} : Keeps f (deref p : BstM K V Unit) := .ite .throw .pure

theorem keeps_readChild {γ : Type} {f : Bst K V → γ} : Keeps f (readChild d p : BstM K V Addr) := by
  cases d with
  | left => exact .bind keeps_deref fun _ => .bind .get fun _ => .pure
  | right => exact .bind keeps_deref fun _ => .bind .get fun _ => .pure

theorem keeps_localExtremumLoop {γ : Type} {f : Bst K V → γ} {n : Nat} :
    Keeps f (bstLocalExtremumLoop d n p : BstM K V Addr) := by
  induction n generalizing p with
  | zero => exact .bind keeps_readChild fun _ => .bind .get fun _ => .ite .pure .throw
  | succ n ih => exact .bind keeps_readChild fun _ => .bind .get fun _ => .ite .pure ih

theorem keeps_updateCacheInsert {location : BstLocation} :
    Keeps Bst.uncached (bstUpdateCacheInsert location : BstM K V Unit) := by
  unfold bstUpdateCacheInsert
  refine .bind .get fun t => .ite ?_ (.ite ?_ (.ite ?_ .pure))
  · exact .bind (keeps_readChild (d := .left)) fun _ => .modify fun _ => rfl
  · exact .bind (keeps_readChild (d := .right)) fun _ => .modify fun _ => rfl
  · exact .modify fun _ => rfl

variable [Build]

theorem keeps_bstParent {γ : Type} {f : Bst K V → γ} : Keeps f (bstParent p : BstM K V Addr) :=
  .bind .lift fun _ => .bind keeps_deref fun _ => .bind .get fun _ => .pure

theorem keeps_updateCacheDelete : Keeps Bst.uncached (bstUpdateCacheDelete p : BstM K V Unit) := by
  unfold bstUpdateCacheDelete
  refine .bind .get fun t => .ite ?_ (.ite ?_ (.ite ?_ .pure))
  · exact .bind .lift fun _ => .modify fun _ => rfl
  · refine .bind (keeps_readChild (d := .left)) fun _ => .bind .lift fun _ => ?_
    refine .bind (keeps_readChild (d := .right)) fun _ => .ite ?_ ?_
    · refine .bind (keeps_readChild (d := .right)) fun _ => .bind keeps_localExtremumLoop fun _ => ?_
      exact .modify fun _ => rfl
    · exact .bind keeps_bstParent fun _ => .modify fun _ => rfl
  · refine .bind (keeps_readChild (d := .right)) fun _ => .bind .lift fun _ => ?_
    refine .bind (keeps_readChild (d := .left)) fun _ => .ite ?_ ?_
    · refine .bind (keeps_readChild (d := .left)) fun _ => .bind keeps_localExtremumLoop fun _ => ?_
      exact .modify fun _ => rfl
    · exact .bind keeps_bstParent fun _ => .modify fun _ => rfl

omit [Build] in
theorem flFree_freed (hx : x ≠ null) :
    Returns (bstFlFree x) t fun _ t' => ∃ w, t'.uncached = (t.freed x w).uncached := by
  simp only [bstFlFree, returns_modify, jfsFlFree, if_neg hx]
  exact ⟨_, rfl⟩

/-! ### `bst_delete` -/

/-- The repair after a node has been taken out. -/
theorem deleteRepair_fix (h : Focused t ctx s) (hblack : c = .black → ∃ n, Deficient ctx s n) :
    Returns (if Color.word c = bstBlack then bstFixupDelete (ptr t.nil s) else pure ()) t fun _ t' =>
      ∃ T, Holds t' T ∧ (c = .red → T = plug ctx s) ∧ (c = .black → DelFix ctx s T) ∧
        Frames t t' (t.nil :: (plug ctx s).toList) := by
  rw [returns_ite, Color.word_black_iff]
  refine ⟨fun hc => ?_, fun hc => ?_⟩
  · obtain ⟨n, hdef⟩ := hblack hc
    refine (bstFixupDelete_spec h hdef).mono fun _ t' ht' => ?_
    obtain ⟨T, hfix, hholds, hframe⟩ := ht'
    subst hc
    exact ⟨T, hholds, (nomatch ·), fun _ => hfix, hframe⟩
  · rw [returns_pure]
    exact ⟨_, h.holds, fun _ => rfl, fun hblack => absurd hblack hc, Frames.refl⟩

theorem deleteOneChild_removes (h : Holds t (plug ctx (dnode d c leaf x s)))
    (hrb : IsRedBlack (plug ctx (dnode d c leaf x s))) :
    Returns (bstTransplant x (ptr t.nil s)) t fun _ t₁ =>
      Returns (if Color.word c = bstBlack then bstFixupDelete (ptr t.nil s) else pure ()) t₁ fun _ t' =>
        ∃ T, Holds t' T ∧ (c = .red → T = plug ctx s) ∧ (c = .black → DelFix ctx s T) ∧
          Frames t t' (t.nil :: (plug ctx s).toList) := by
  refine (bstTransplant_spec h).mono fun _ t₁ ht₁ => ?_
  obtain ⟨hfoc, hframe⟩ := ht₁
  have hrepair := deleteRepair_fix (c := c) hfoc fun hc => by
    subst hc
    exact hrb.deficient
  rw [hframe.nil] at hrepair
  refine hrepair.mono fun _ t' ht' => ?_
  obtain ⟨T, hholds, hred, hblack, hframe'⟩ := ht'
  exact ⟨T, hholds, hred, hblack, hframe.trans hframe'⟩

/-- `bst_delete` takes the node out. -/
theorem bstDelete_removes (h : Holds t (plug ctx (node c l x r))) (hrb : IsRedBlack (plug ctx (node c l x r))) :
    Returns (bstDelete x) t fun _ t' => ∃ T, Holds t' T ∧ Removal ctx c l x r T ∧
      Frames t t' (t.nil :: (plug ctx (node c l x r)).toList) := by
  obtain ⟨hnil, hctx, ⟨hx, hl, hr⟩, -⟩ := holds_plug.1 h
  have hright : t.child .right x = ptr t.nil r := hx.far
  simp only [bstDelete, returns_bind, returns_get, returns_assert, returns_bstColor, returns_readLeft,
    returns_readRight, returns_ite, hx.near, hright, hx.color, ptr_eq_nil_iff hl, ptr_eq_nil_iff hr]
  refine ⟨fun _ => by simpa using hx.ne_nil, hx.ne_null, hx.ne_null, hx.ne_null, fun hleaf => ⟨hx.ne_null, ?_⟩,
    fun hlne => ⟨fun hleaf => ⟨hx.ne_null, ?_⟩, fun hrne => ?_⟩⟩
  · -- There is nothing to the left of the node.
    subst hleaf
    refine (deleteOneChild_removes (d := .left) h hrb).mono fun _ t₁ hrest => ?_
    rw [returns_pure]
    refine returns_ite.1 (hrest.mono fun _ t' ht' => ?_)
    obtain ⟨T, hholds, hred, hblack, hframe⟩ := ht'
    refine ⟨T, hholds, .child .left r T rfl hred hblack, hframe.subset fun q hq => ?_⟩
    simp only [mem_plug, toList_node, List.mem_cons, List.mem_append] at hq ⊢
    tauto
  · -- There is nothing to the right of the node.
    subst hleaf
    refine (deleteOneChild_removes (d := .right) h hrb).mono fun _ t₁ hrest => ?_
    rw [returns_pure]
    refine returns_ite.1 (hrest.mono fun _ t' ht' => ?_)
    obtain ⟨T, hholds, hred, hblack, hframe⟩ := ht'
    refine ⟨T, hholds, .child .right l T rfl hred hblack, hframe.subset fun q hq => ?_⟩
    simp only [mem_plug, toList_node, List.mem_cons, List.mem_append] at hq ⊢
    tauto
  · -- The next node takes its place.
    refine (bstDeleteSplice_spec h hlne hrne).mono fun res t₁ hpost => ?_
    obtain ⟨spine, cy, y, yr, hplug, hdir, rfl, hfoc, hframe⟩ := hpost
    have hrb' : IsRedBlack (plug (spine ++ ⟨.right, c, y, l⟩ :: ctx) (dnode .left cy leaf y yr)) := by
      rw [hplug] at hrb
      have hrelabel := hrb.relabel y
      rw [plug_append]
      exact hrelabel
    have hrepair := deleteRepair_fix (c := cy) hfoc fun hc => by
      subst hc
      exact hrb'.deficient
    rw [hframe.nil] at hrepair
    refine returns_ite.1 (hrepair.mono fun _ t' ht' => ?_)
    obtain ⟨T, hholds, hred, hblack, hframe'⟩ := ht'
    refine ⟨T, hholds, .next spine cy y yr T hplug hdir hred hblack, hframe.trans (hframe'.subset fun q hq => ?_)⟩
    rw [hplug]
    simp only [plug_append, plug_cons, RedBlack.Frame.fill, mem_plug, mem_dnode, toList_node, List.mem_cons,
      List.mem_append] at hq ⊢
    tauto

/-! ### The calls -/

/-- The slot in hand is linked where the search ended. -/
theorem BstInv.insert_rewrites {location : BstLocation} {Q : Unit → Bst K V → Prop}
    (h : BstInv slots [x] t cmp rv T chains) (ranks : Ranks cmp rk rv) (habsent : Absent t rk rv key T)
    (hanswers : GapAnswers t cmp rk rv key)
    (hfound : FoundAt t (probe t cmp key) (gapCtx t cmp key T) leaf location)
    (hret : Returns (bstInsert x location) t fun _ t₁ => Returns (bstUpdateCacheInsert location) t₁ Q) :
    ∃ ctx T₀ t₁ t', T = plug ctx leaf ∧ InsFix ctx (node .red leaf x leaf) T₀ ∧ Holds t₁ T₀.blacken ∧
      Frames t t₁ (x :: labels ctx) ∧ t'.uncached = t₁.uncached ∧ Q () t' := by
  have hplug := habsent.plug_gapCtx ranks
  have hdir := seek_directed (g := probe t cmp key) (t := T) directed_nil
  rw [← gapCtx] at hdir
  obtain ⟨hloc, -⟩ := hfound.sides hdir (h.toSearchable.sideAnswers ranks habsent hanswers)
  have hxT : x ∉ T.toList := fun hin => h.not_live (by simp) (mem_live_of_mem hin)
  have hholds := h.holds
  have hrb := h.redBlack
  rw [← hplug] at hholds hrb hxT
  rw [mem_plug_leaf] at hxT
  have hx := h.slot_of_out (p := x) (by simp)
  obtain ⟨_, t₁, -, ⟨T₀, hfix, hholds₁, hframe⟩, hret⟩ :=
    (bstInsert_spec hholds (h.nodeSlots.node x hx) hxT hrb.focus.2.2.2 hloc).and hret
  obtain ⟨_, t₂, -, hcached, hQ⟩ := keeps_updateCacheInsert.returns hret
  exact ⟨_, T₀, t₁, t₂, hplug.symm, hfix, hholds₁, hframe, hcached, hQ⟩

/-- A linked node is taken out, or a slot comes off its chain, and the slot goes back onto the free list. -/
theorem BstInv.remove_rewrites {Q : V → Bst K V → Prop} (h : BstInv slots [] t cmp rv T chains) (hp : p ∈ T.toList)
    (hret : Returns (bstDetachAndDelete p) t Q) :
    ∃ v t' T', Holds t' T' ∧ Rewrites slots t t' T T' ∧ Q v t' := by
  have hslot := h.slot_of_live (mem_live_of_mem hp)
  simp only [bstDetachAndDelete, returns_bind, returns_get, returns_assert, returns_ite, returns_pure] at hret
  obtain ⟨-, hret⟩ := hret
  rw [returns_bstContainerValue h.offset, returns_treeDetach h.offset] at hret
  obtain ⟨-, hself, hchain⟩ := hret
  by_cases hnull : t.mem.list p = null
  · obtain ⟨hself, -⟩ := hself hnull
    obtain ⟨ctx, c, l, r, rfl⟩ := exists_plug hp
    obtain ⟨_, t₁, -, ⟨T₁, hholds, hremoval, hframe⟩, hret⟩ :=
      (bstDelete_removes h.holds h.redBlack).and (hself rfl)
    obtain ⟨_, t₂, -, hcached, hret⟩ := keeps_updateCacheDelete.returns hret
    obtain ⟨_, t₃, -, ⟨w, hfreed⟩, hQ⟩ := (flFree_freed (h.nodeSlots.node p hslot).1).and hret
    have hsame : t₃.uncached = (t₁.freed p w).uncached := hfreed.trans (Bst.uncached_freed hcached)
    have hnodup := h.holds.nodup
    rw [toList_plug, toList_node] at hnodup
    have hout : p ∉ T₁.toList := by
      rw [hremoval.toList]
      simp only [List.nodup_append', List.nodup_cons, List.disjoint_append_right, List.disjoint_cons_right,
        List.mem_append, List.disjoint_append_left, List.disjoint_cons_left] at hnodup ⊢
      tauto
    have hnotnil : p ≠ t₁.nil := by
      rw [hframe.nil]
      exact (h.nodeSlots.node p hslot).2.1
    have hholds₃ : Holds t₃ T₁ := (hholds.freed (x := p) (w := w) (by simp [hnotnil, hout])).of_uncached hsame
    exact ⟨_, t₃, T₁, hholds₃, .removed ctx c l r p T₁ t₁ w hslot rfl hremoval hframe hsame, hQ⟩
  · obtain ⟨hsame, hother⟩ := hchain hnull
    obtain ⟨chains', h₁, hin, -⟩ := h.detached hp hnull
    have hne : t.mem.list p ≠ p := by
      intro heq
      rw [heq] at hin
      exact h.not_mem_chain hp hp hin
    have hret := hother fun heq => hne (by simpa using heq)
    have hnode : t.mem.list p + t.valueOffset = t.mem.list p + (t.detached p).valueOffset := rfl
    rw [hnode, returns_bstContainerNode] at hret
    have hfree := h₁.slot_of_out (p := t.mem.list p) (by simp)
    obtain ⟨_, t₂, -, ⟨w, hfreed⟩, hQ⟩ := (flFree_freed (h.nodeSlots.node _ hfree).1).and hret
    have hlive : t.mem.list p ∉ live T chains' := h₁.not_live (by simp)
    have hout : t.mem.list p ∉ t.nil :: T.toList := by
      rw [List.mem_cons, not_or]
      exact ⟨(h.nodeSlots.node _ hfree).2.1, fun hin => hlive (mem_live_of_mem hin)⟩
    have hholds : Holds ((t.detached p).freed (t.mem.list p) w) T := h₁.holds.freed hout
    exact ⟨_, t₂, T, hholds.of_uncached hfreed, .detached p _ w hslot hfree hfreed, hQ⟩

omit [Build] in
/-- The comparator answers as before once the value is packed. -/
theorem BstInv.gapAnswers_packed {fl : Fl} (h : BstInv slots [] t cmp rv T chains)
    (hpacked : BstInv slots [t.freeList.list] ({ t with freeList := fl }.packed t.freeList.list value) cmp rv T chains)
    (hsafe : PutsSafe t cmp rk rv key)
    (habsent : Absent ({ t with freeList := fl }.packed t.freeList.list value) rk rv key T) :
    GapAnswers ({ t with freeList := fl }.packed t.freeList.list value) cmp rk rv key := by
  have hsame : ∀ p ∈ T.toList, ({ t with freeList := fl }.packed t.freeList.list value).valueAt p = t.valueAt p := by
    intro p hp
    have hne : p ≠ t.freeList.list := by
      rintro rfl
      exact hpacked.not_live (by simp) (mem_live_of_mem hp)
    exact Bst.packed_valueAt _ value hne
  have hfresh : ∀ p, t.IsLinked p → t.rank rv p ≠ rk key := by
    intro p hp
    have hpT := h.holds.isLinked_iff.1 hp
    rw [Bst.rank, ← hsame p hpT]
    exact habsent p hpT
  exact (hsafe.fresh hfresh).2.congr h.holds hpacked.holds rfl (fun _ => rfl) rfl h.largest_mem hsame

/-- A value gets a slot, which goes onto the chain of its key or becomes a node. -/
theorem BstInv.puts_rewrites (h : BstInv slots [] t cmp rv T chains) (ranks : Ranks cmp rk rv)
    (hcount : t.freeList.count ≠ 0) (hsafe : PutsSafe t cmp rk rv key)
    {Q : JclErr → Bst K V → Prop} (hret : Returns (jfsBstPuts value key err) t Q) :
    ∃ e t' T', Holds t' T' ∧ Rewrites slots t t' T T' ∧ Q e t' := by
  simp only [jfsBstPuts, returns_ite, returns_bind, returns_get, returns_pure, returns_modify] at hret
  obtain ⟨x, t₁, -, ⟨rfl, h₁, fl, rfl⟩, hret⟩ := (h.alloc hcount).and (hret.2 hcount)
  rw [returns_bstPackNode h₁.offset] at hret
  change Returns (bstCheckCache key) ({ t with freeList := fl }.packed t.freeList.list value) _ at hret
  have h₂ := h₁.packed value
  have hslot := h₁.slot_of_out (p := t.freeList.list) (by simp)
  have hattached : ∀ b ∈ slots, ∀ (e : JclErr) (t' : Bst K V), Q e t' →
      t'.uncached = ((t.packed t.freeList.list value).attached b t.freeList.list).uncached →
      ∃ e t' T', Holds t' T' ∧ Rewrites slots t t' T T' ∧ Q e t' := by
    intro b hb e t' hQ hsame
    refine ⟨e, t', T, h.holds.congr ?_ ?_, .attached b _ value hb hslot hsame, hQ⟩
    · obtain ⟨hmem, hnil, -, -⟩ := Bst.uncached_eq_iff.1 hsame
      refine ⟨hnil, fun q _ => ?_⟩
      rw [hmem]
      exact ⟨rfl, rfl, rfl⟩
    · exact (Bst.uncached_eq_iff.1 hsame).2.2.1
  obtain ⟨c, t₂, -, ⟨rfl, hc⟩, hhit, hmiss⟩ := (bstCheckCache_spec h₂.cmp h₂.offset).and hret
  rcases hc with ⟨hne, hcached, -⟩ | ⟨rfl, -⟩
  · -- A cached node is a slot, whatever it holds.
    have hcslot : c ∈ slots := by
      simp only [Bst.cachedNodes, List.mem_cons, List.not_mem_nil, or_false] at hcached
      rcases hcached with rfl | rfl | rfl
      · exact h₂.previous.resolve_left hne
      · exact h₂.slot_of_live (mem_live_of_mem (h₂.largest_mem hne))
      · exact h₂.slot_of_live (mem_live_of_mem (h₂.smallest_mem hne))
    have hret := hhit hne
    rw [returns_bstContainerValue h₂.offset] at hret
    obtain ⟨-, -, hQ⟩ := returns_treeAttach.1 hret
    exact hattached c hcslot _ _ hQ rfl
  · have hret := hmiss fun hne => hne rfl
    by_cases hstored : ∃ p ∈ T.toList, ({ t with freeList := fl }.packed t.freeList.list value).rank rv p = rk key
    · -- The key is found in the tree.
      obtain ⟨p, hp, hkey⟩ := hstored
      obtain ⟨location, t₃, -, ⟨rfl, rfl⟩, hfound, -⟩ :=
        (bstFind_found h₂.toTreeOk h₂.increasing ranks hp hkey).and hret
      have hret := hfound (h₂.holds.of_mem hp).2.1
      rw [returns_bstContainerValue h₂.offset] at hret
      obtain ⟨-, -, hQ⟩ := returns_treeAttach.1 hret
      have hpslot := h₂.slot_of_live (mem_live_of_mem hp)
      exact hattached _ hpslot _ _ hQ rfl
    · -- The key is new.
      have habsent : Absent _ rk rv key T := fun p hp hkey => hstored ⟨p, hp, hkey⟩
      obtain ⟨location, t₃, -, ⟨rfl, hfound⟩, -, hnew⟩ := (bstFind_absent h₂.toTreeOk ranks habsent).and hret
      have hanswers := h.gapAnswers_packed h₂ hsafe habsent
      obtain ⟨ctx, T₀, t₄, t₅, hT, hfix, hholds, hframe, hsame, hQ⟩ :=
        h₂.insert_rewrites ranks habsent hanswers hfound (hnew fun hne => hne hfound.node)
      have hlinked : Holds t₅ T₀.blacken := hholds.of_uncached hsame
      refine ⟨_, _, T₀.blacken, hlinked.withCache _, ?_, hQ⟩
      exact .inserted ctx _ value T₀ ({ t with freeList := fl }.packed t.freeList.list value) t₄ hslot hT hfix rfl
        hframe hsame

/-- Every call that returns is one of these rewrites, from the invariant to the invariant. -/
theorem BstInv.rewrites {op : BstOp K V} {out : BstOut V} (h : BstInv slots [] t cmp rv T chains)
    (ranks : Ranks cmp rk rv) (hkeyed : op.Keyed rk rv) (hallowed : PutsAllowed cmp rk rv t op)
    (run : op.call.run t = .ok (out, t')) :
    ∃ T' chains', BstInv slots [] t' cmp rv T' chains' ∧ Rewrites slots t t' T T' := by
  obtain ⟨T', chains', hinv⟩ := Stored.step ⟨T, chains, h⟩ ranks hkeyed hallowed run
  suffices hrewrites : ∃ T₁, Holds t' T₁ ∧ Rewrites slots t t' T T₁ by
    obtain ⟨T₁, hholds, hrewrites⟩ := hrewrites
    obtain rfl := hinv.holds.unique hholds
    exact ⟨T', chains', hinv, hrewrites⟩
  have hget : ∀ d : Dir, (jfsBstGet d .ok).run t = .ok (out, t') →
      ∃ T₁, Holds t' T₁ ∧ Rewrites slots t t' T T₁ := by
    intro d run
    have hret : Returns (jfsBstGet d .ok) t fun _ s => s = t' := ⟨_, _, run, rfl⟩
    by_cases hnil : t.cached d = t.nil
    · obtain ⟨_, _, -, ⟨-, rfl⟩, rfl⟩ := (get_empty hnil).and hret
      exact ⟨T, h.holds, .same rfl⟩
    · obtain ⟨v, s, T₁, hholds, hrewrites, rfl⟩ :=
        h.remove_rewrites (h.cached.mem hnil) ((returns_get_cached hnil).1 hret)
      exact ⟨T₁, hholds, hrewrites⟩
  cases op with
  | puts value key =>
      have hret : Returns (BstOp.puts value key).call t fun _ s => s = t' := ⟨_, _, run, rfl⟩
      simp only [BstOp.call, returns_bind, returns_pure] at hret
      by_cases hcount : t.freeList.count = 0
      · obtain ⟨_, _, -, ⟨-, rfl⟩, rfl⟩ := (puts_full hcount).and hret
        exact ⟨T, h.holds, .same rfl⟩
      · obtain ⟨_, s, T₁, hholds, hrewrites, rfl⟩ := h.puts_rewrites ranks hcount (hallowed hcount) hret
        exact ⟨T₁, hholds, hrewrites⟩
  | takes key =>
      have hret : Returns (jfsBstTakes key .ok) t fun _ s => s = t' := ⟨_, _, run, rfl⟩
      cases h.outcome ranks hkeyed hallowed run with
      | empty | hit | badKey | getEmpty => exact ⟨T, h.holds, .same rfl⟩
      | taken hp hkey hmiss =>
          obtain ⟨v, s, T₁, hholds, hrewrites, rfl⟩ :=
            h.remove_rewrites hp ((h.returns_takes_found ranks hmiss hp hkey).1 hret)
          exact ⟨T₁, hholds, hrewrites⟩
      | @got _ d _ _ hop => cases d <;> cases hop
  | getLargest => exact hget .right run
  | getSmallest => exact hget .left run

end

end Jcl
