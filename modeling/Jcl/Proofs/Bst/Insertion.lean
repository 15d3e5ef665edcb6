/-
Module: Jcl.Proofs.Bst.Insertion
Layer: Proofs
Purpose: `jfs_bst_puts` of a new key into a well-formed tree. `bst_find` takes any negative answer of the
  comparator as "left", while `bst_insert` and `bst_update_cache_insert` compare with -1 and 1; the result
  is a correct search tree exactly if the comparator answers so at the gap.
Imports: Jcl.Proofs.Bst.Calls
Trusted boundary: none (fully proved)
Main exports: Inserted, returns_puts_absent, bstInsert_wrong_side, puts_inserts_iff
-/
import Jcl.Proofs.Bst.Calls

namespace Jcl

open RedBlack RedBlack.RBTree TaggedWord

section

variable {K V O : Type} [LinearOrder O] {t t' : Bst K V} {cmp : K → V → Int} {rk : K → O} {rv : V → O}
  {key : K} {value : V} {err : JclErr} {T T' : RBTree Addr} {p q x : Addr} {c : Color} {r : RBTree Addr}
  {ctx : List (Frame Addr)} {location : BstLocation}

/-- The state with the next slot of the free list taken and the value written into it. -/
def Bst.taken (t : Bst K V) (value : V) : Bst K V :=
  { t with freeList := ⟨t.mem.parentColor t.freeList.list, t.freeList.count - 1⟩ }.packed t.freeList.list value

/-- A well-formed tree in front of a `jfs_bst_puts`: its ends are cached, the third cached node is linked
    too, and a slot is free. -/
structure Ready (t : Bst K V) (cmp : K → V → Int) (rv : V → O) (T : RBTree Addr) : Prop
    extends Searchable t cmp rv T where
  previous : t.cache.previous = t.nil ∨ t.cache.previous ∈ T.toList
  count : t.freeList.count ≠ 0
  slot : t.freeList.list ≠ null ∧ t.freeList.list ≠ t.nil ∧ Aligned t.freeList.list
  fresh : t.freeList.list ∉ T.toList

theorem Ready.valueAt (h : Ready t cmp rv T) (value : V) (hp : p ∈ T.toList) :
    (t.taken value).valueAt p = t.valueAt p :=
  Bst.packed_valueAt _ value fun heq => h.fresh (heq ▸ hp)

theorem Ready.taken (h : Ready t cmp rv T) (value : V) : Searchable (t.taken value) cmp rv T :=
  h.toSearchable.congr (Agree.of_links rfl (fun _ _ => rfl) rfl rfl) rfl (fun d => by cases d <;> rfl) rfl rfl
    fun _ hp => h.valueAt value hp

/-- The condition on the comparator does not depend on the free slot. -/
theorem Ready.gapAnswers_iff (h : Ready t cmp rv T) (value : V) :
    GapAnswers (t.taken value) cmp rk rv key ↔ GapAnswers t cmp rk rv key := by
  constructor
  · intro hanswers
    exact hanswers.congr (h.taken value).holds h.holds rfl (fun _ => rfl) rfl
      (fun hne => (h.taken value).cached.mem (d := .right) hne) fun p hp => (h.valueAt value hp).symm
  · intro hanswers
    exact hanswers.congr h.holds (h.taken value).holds rfl (fun _ => rfl) rfl
      (fun hne => h.cached.mem (d := .right) hne) fun p hp => h.valueAt value hp

/-- The tree after a successful insertion of the key: increasing, made of the old nodes and the new one,
    with the key found at that one and the two ends cached. -/
structure Inserted (t : Bst K V) [Build] (rv : V → O) (key : K) (T : RBTree Addr) (t' : Bst K V)
    (T' : RBTree Addr) : Prop where
  holds : Holds t' T'
  increasing : Increasing t' rv T'
  nodes : T'.toList.Perm (t.freeList.list :: T.toList)
  found : Returns (bstFind key) t' fun location s => s = t' ∧ location.node = t.freeList.list
  cached : CacheExact t' T'

/-- Cutting off what hangs to the right of a node without a left child. -/
theorem Holds.cut_right (h : Holds t (plug ctx (node c leaf p r))) :
    Holds (t.setChild .right p t.nil) (plug ctx (node c leaf p leaf)) := by
  obtain ⟨hnil, hctx, ⟨hp, -, -⟩, hnodup⟩ := holds_plug.1 h
  obtain ⟨hin, hout, hdisj⟩ := nodup_plug.1 hnodup
  have hpctx : p ∉ labels ctx := fun hmem => hdisj (by simp) hmem
  refine holds_plug.2 ⟨hnil.congr (Agree.setChild (by simpa using hp.ne_nil)),
    hctx.congr (Agree.setChild hpctx) rfl, ⟨⟨hp.ne_null, hp.ne_nil, hp.aligned, ?_, ?_, ?_, ?_⟩, trivial,
    trivial⟩, ?_⟩
  · simpa using hp.color
  · simpa using hp.parent
  · exact hp.near
  · exact Bst.setChild_child_same
  · rw [nodup_plug]
    exact ⟨by simp, hout, fun q hq hl => hpctx (by simpa using (List.mem_singleton.1 (by simpa using hq)) ▸ hl)⟩

theorem Ready.absent (h : Ready t cmp rv T) (habsent : Absent t rk rv key T) (value : V) :
    Absent (t.taken value) rk rv key T := fun p hp => by
  rw [Bst.rank, h.valueAt value hp]
  exact habsent p hp

variable [Build]

/-- For a new key, `jfs_bst_puts` inserts the packed slot where the search ended. -/
theorem returns_puts_absent (err : JclErr) (h : Ready t cmp rv T) (ranks : Ranks cmp rk rv)
    (habsent : Absent t rk rv key T) :
    ∃ location, FoundAt (t.taken value) (probe (t.taken value) cmp key)
        (gapCtx (t.taken value) cmp key T) leaf location ∧
      ∀ Q : JclErr → Bst K V → Prop, Returns (jfsBstPuts value key err) t Q ↔
        Returns (bstInsert t.freeList.list location) (t.taken value) fun _ t₁ =>
          Returns (bstUpdateCacheInsert location) t₁ fun _ t₂ =>
            Q err { t₂ with cache := { t₂.cache with previous := t.freeList.list } } := by
  have hsearch := h.taken value
  have habsent' : Absent (t.taken value) rk rv key T := fun p hp => by
    rw [Bst.rank, h.valueAt value hp]
    exact habsent p hp
  obtain ⟨location, t₁, hfind, rfl, hfound⟩ := bstFind_absent hsearch.toTreeOk ranks habsent'
  refine ⟨location, hfound, fun Q => ?_⟩
  have hfind' : Returns (bstFind key) (t.taken value) fun l s => l = location ∧ s = t.taken value :=
    ⟨location, _, hfind, rfl, rfl⟩
  have hcheck : Returns (bstCheckCache key) (t.taken value) fun c s => c = t.nil ∧ s = t.taken value := by
    refine (bstCheckCache_spec hsearch.cmp hsearch.offset).mono fun c s hc => ?_
    obtain ⟨rfl, ⟨hne, hcached, hzero⟩ | ⟨rfl, -⟩⟩ := hc
    · have hmem : c ∈ T.toList := by
        simp only [Bst.cachedNodes, List.mem_cons, List.not_mem_nil, or_false] at hcached
        rcases hcached with rfl | rfl | rfl
        · exact h.previous.resolve_left hne
        · exact hsearch.cached.mem (d := .right) hne
        · exact hsearch.cached.mem (d := .left) hne
      exact absurd ((ranks.zero _ _).1 hzero).symm (habsent' c hmem)
    · exact ⟨rfl, rfl⟩
  have halloc : jfsFlAlloc t.mem t.freeList =
      .ok (t.freeList.list, ⟨t.mem.parentColor t.freeList.list, t.freeList.count - 1⟩) := by
    simp [jfsFlAlloc, h.count, h.slot.1, LinkMemory.next]
  have halloc' : Returns bstFlAlloc t fun p s => p = t.freeList.list ∧ s = { t with
      freeList := ⟨t.mem.parentColor t.freeList.list, t.freeList.count - 1⟩ } := by
    simp only [bstFlAlloc, returns_bind, returns_get, returns_lift, returns_set, returns_pure]
    exact ⟨_, halloc, rfl, rfl⟩
  have hnil : location.node = (t.taken value).nil := hfound.node
  simp only [jfsBstPuts, returns_bind, returns_get, returns_ite, returns_pure, returns_modify, h.count,
    false_imp_iff, not_false_eq_true, true_imp_iff, true_and]
  rw [halloc'.iff_of_eq, returns_bstPackNode (t := { t with
    freeList := ⟨t.mem.parentColor t.freeList.list, t.freeList.count - 1⟩ }) h.offset]
  change Returns (bstCheckCache key) (t.taken value) _ ↔ _
  rw [hcheck.iff_of_eq, hfind'.iff_of_eq, hnil]
  simp only [ne_eq, not_true_eq_false, false_imp_iff, not_false_eq_true, true_imp_iff, true_and, Bst.taken,
    Bst.packed]

/-- `bst_insert` overwrites the right child of the parent when the comparator's answer there was negative
    but not -1. -/
theorem bstInsert_wrong_side (h : Holds t (plug (⟨.left, c, p, r⟩ :: ctx) leaf))
    (hx : x ≠ null ∧ x ≠ t.nil ∧ Aligned x) (hfresh : x ∉ labels (⟨.left, c, p, r⟩ :: ctx))
    (hroot : RootBlack (⟨.left, c, p, r⟩ :: ctx)) (hnode : location.node = t.nil)
    (hparent : location.parent = p) (hcmp : location.parentCmp ≠ 0) (hnot : location.parentCmp ≠ -1) :
    Returns (bstInsert x location) t fun _ t' => ∃ T₀,
      InsFix (⟨.right, c, p, leaf⟩ :: ctx) (node .red leaf x leaf) T₀ ∧ Holds t' T₀.blacken ∧
        Frames t t' (x :: labels (⟨.left, c, p, r⟩ :: ctx)) := by
  have hcut : Holds (t.setChild .right p t.nil) (plug (⟨.right, c, p, leaf⟩ :: ctx) leaf) := Holds.cut_right h
  have hxp : x ≠ p := fun heq => hfresh (by simp [heq])
  have hfresh' : x ∉ labels (⟨.right, c, p, leaf⟩ :: ctx) := by
    simp only [labels_cons, List.mem_cons, List.mem_append, not_or] at hfresh ⊢
    exact ⟨hfresh.1, by simp, hfresh.2.2⟩
  have hloc : LocationAt (t.setChild .right p t.nil).nil (⟨.right, c, p, leaf⟩ :: ctx) location := by
    refine ⟨hnode, hparent, ?_⟩
    rintro f rest heq
    cases heq
    exact ⟨hcmp, fun hminus => absurd hminus hnot, fun hleft => by cases hleft⟩
  have hroot' : RootBlack (⟨.right, c, p, leaf⟩ :: ctx) := by
    cases ctx with
    | nil => exact hroot
    | cons f ctx => exact hroot
  have hinsert := bstInsert_spec hcut hx hfresh' hroot' hloc
  have hpnil : p ≠ t.nil := by
    obtain ⟨-, hctx, -⟩ := holds_plug.1 h
    exact hctx.1.ne_nil
  -- The old right child is overwritten, so that cutting it off first makes no difference.
  have hsame : ∀ Q : Unit → Bst K V → Prop, Returns (bstInsert x location) (t.setChild .right p t.nil) Q →
      Returns (bstInsert x location) t Q := by
    intro Q hret
    have hstate : ∀ w, ((((t.setChild .right p t.nil).setChild .left x t.nil).setChild .right x
        t.nil).setParentColor x w).setChild .right p x =
        (((t.setChild .left x t.nil).setChild .right x t.nil).setParentColor x w).setChild .right p x := by
      intro w
      simp only [Bst.setChild, Bst.setParentColor]
      rw [Function.update_comm hxp.symm, Function.update_idem]
    simp only [bstInsert, returns_bind, returns_get, returns_assert, hnode, hparent, returns_writeLeft,
      returns_writeRight, returns_bstSetParentColor, returns_ite, returns_writeRoot, Bst.setChild_nil] at hret ⊢
    obtain ⟨h₁, h₂, h₃, h₄, h₅, h₆, -, hret⟩ := hret
    obtain ⟨h₇, -, hret⟩ := hret hpnil
    obtain ⟨h₈, hret⟩ := hret hnot
    rw [hstate] at hret
    exact ⟨h₁, h₂, h₃, h₄, h₅, h₆, fun heq => absurd heq hpnil, fun _ => ⟨h₇, fun hminus => absurd hminus hnot,
      fun _ => ⟨h₈, hret⟩⟩⟩
  refine (hsame _ hinsert).mono fun _ t' ht' => ?_
  obtain ⟨T₀, hfix, hholds, hframe⟩ := ht'
  refine ⟨T₀, hfix, hholds, (Frames.setChild (by simp)).trans (hframe.subset fun q hq => ?_)⟩
  simp only [labels_cons, List.mem_cons, List.mem_append] at hq ⊢
  rcases hq with rfl | rfl | hq | hq
  · exact Or.inl rfl
  · exact Or.inr (Or.inl rfl)
  · simp at hq
  · exact Or.inr (Or.inr (Or.inr hq))

/-- If the comparator answers as the code expects, the new key is inserted. -/
theorem puts_inserts (h : Ready t cmp rv T) (ranks : Ranks cmp rk rv) (hvalue : rv value = rk key)
    (habsent : Absent t rk rv key T) (hanswers : GapAnswers t cmp rk rv key) :
    Returns (jfsBstPuts value key err) t fun err' t' => err' = err ∧ ∃ T', Inserted t rv key T t' T' := by
  obtain ⟨location, hfound, hputs⟩ := returns_puts_absent err h ranks habsent
  have hrank : (t.taken value).rank rv t.freeList.list = rk key := by
    rw [Bst.rank, Bst.taken, Bst.packed_valueAt_self, hvalue]
  have hinsert := (h.taken value).insert ranks h.slot h.fresh hrank (h.absent habsent value)
    ((h.gapAnswers_iff value).2 hanswers) hfound
  rw [returns_bind] at hinsert
  rw [hputs]
  refine hinsert.mono fun _ t₁ ht₁ => ht₁.mono fun _ t₂ ht₂ => ⟨rfl, ?_⟩
  obtain ⟨T', l, m, hsearch, hold, hnew, hrelinks⟩ := ht₂
  have hsearch' : Searchable { t₂ with cache := { t₂.cache with previous := t.freeList.list } } cmp rv T' :=
    hsearch.congr (Agree.of_links rfl (fun _ _ => rfl) rfl rfl) rfl (fun d => by cases d <;> rfl) rfl rfl
      fun _ _ => rfl
  have hin : t.freeList.list ∈ T'.toList := by simp [hnew]
  refine ⟨T', hsearch'.holds, hsearch'.increasing, ?_, bstFind_found hsearch'.toTreeOk hsearch'.increasing
    ranks hin ?_, hsearch'.cached⟩
  · rw [hnew, hold]
    exact List.perm_middle
  · exact (hrelinks.rank _).trans hrank

/-- If it does not, the new node is on the wrong side of its parent, or it is the last node and not the
    cached one. -/
theorem gapAnswers_of_puts (h : Ready t cmp rv T) (ranks : Ranks cmp rk rv) (hvalue : rv value = rk key)
    (habsent : Absent t rk rv key T)
    (hputs : Returns (jfsBstPuts value key err) t fun _ t' => ∃ T', Inserted t rv key T t' T') :
    GapAnswers t cmp rk rv key := by
  obtain ⟨location, hfound, hiff⟩ := returns_puts_absent err h ranks habsent
  have hsearch := h.taken value
  have habsent' := h.absent habsent value
  have hrank : (t.taken value).rank rv t.freeList.list = rk key := by
    rw [Bst.rank, Bst.taken, Bst.packed_valueAt_self, hvalue]
  have hplug := habsent'.plug_gapCtx ranks
  have hsides := habsent'.sides ranks hsearch.increasing
  have hdir := seek_directed (g := probe (t.taken value) cmp key) (t := T) directed_nil
  rw [hiff] at hputs
  rw [← h.gapAnswers_iff value]
  refine hsearch.gapAnswers ranks habsent' ?_
  rw [← gapCtx] at hdir
  have hfresh := h.fresh
  have hholds := hsearch.holds
  have hrb := hsearch.redBlack
  have hcached := hsearch.cached
  generalize gapCtx (t.taken value) cmp key T = ctx at *
  subst hplug
  rw [mem_plug_leaf] at hfresh
  cases ctx with
  | nil => trivial
  | cons f ctx =>
      obtain ⟨-, hctx, -⟩ := holds_plug.1 hholds
      have hparnull : location.parent ≠ null := by
        rw [hfound.parent]
        exact hctx.1.ne_null
      refine ⟨fun hleft => ?_, fun hright => ?_⟩
      · by_contra hnot
        obtain ⟨fd, c, p, r⟩ := f
        subst hleft
        -- The new node replaces what hangs to the right of `p`.
        have hcmp : location.parentCmp = probe (t.taken value) cmp key p := hfound.parentCmp
        have hneg : probe (t.taken value) cmp key p < 0 := (hdir _ List.mem_cons_self).1 rfl
        have hwrong := bstInsert_wrong_side hholds h.slot hfresh hrb.focus.2.2.2 hfound.node hfound.parent
          (by omega) (by rwa [hcmp])
        obtain ⟨_, t₁, -, ⟨T₀, hfix, hholds₁, hframe⟩, hrest⟩ := hwrong.and hputs
        obtain ⟨_, t₂, -, ⟨cache, rfl⟩, T', hinserted⟩ := (bstUpdateCacheInsert_cache hparnull).and hrest
        obtain rfl := hinserted.holds.unique (hholds₁.withCache _)
        have hinc : Increasing (t.taken value) rv T₀.blacken :=
          hinserted.increasing.congr fun q _ => (hframe.relinks.rank q).symm
        rw [Increasing, toList_blacken, hfix.toList, toList_plug] at hinc
        have hpx : (t.taken value).rank rv p < (t.taken value).rank rv t.freeList.list := by
          have hpair := (List.pairwise_append.1 (List.pairwise_append.1 hinc).1).2.2
          exact hpair p (by simp [before]) _ (by simp)
        rw [hrank] at hpx
        exact (hsides.2 p (by simp [after])).asymm hpx
      · by_contra hnot
        -- The new node is the last one, and the cache still names the old one.
        have hcmp : location.parentCmp = probe (t.taken value) cmp key f.key := hfound.parentCmp
        have hpos := (hdir f List.mem_cons_self).2 (hright f (by simp))
        have hloc := hfound.locationAt hdir fun f' rest heq hleft => by
          cases heq
          rw [hright f (by simp)] at hleft
          cases hleft
        have hinsert := bstInsert_spec hholds h.slot hfresh hrb.focus.2.2.2 hloc
        obtain ⟨_, t₁, -, ⟨T₀, hfix, hholds₁, hframe⟩, hrest⟩ := hinsert.and hputs
        have hlargest : t₁.cache.largest = f.key := by
          have := hcached .right
          rw [edge_plug_leaf hright, Option.getD_some] at this
          rw [hframe.cache]
          exact this
        have hne : t₁.cache.largest ≠ t₁.nil := by
          rw [hlargest, hframe.nil]
          exact hctx.1.ne_nil
        rw [returns_bstUpdateCacheInsert hparnull, if_neg (fun hand => by omega),
          if_neg (fun hand => hnot (hcmp.symm.trans hand.1)), if_neg hne] at hrest
        obtain ⟨T', hinserted⟩ := hrest
        obtain rfl := hinserted.holds.unique (hholds₁.withCache _)
        have hlast := hinserted.cached .right
        rw [edge_congr (toList_blacken T₀), hfix.edge_of_dirs hright, Option.getD_some] at hlast
        have hkey : f.key = t.freeList.list := hlargest.symm.trans hlast
        exact hfresh (by simp [hkey])

/-- For a new key and every comparator whose signs follow the order, `jfs_bst_puts` leaves a correct search
    tree iff the comparator answers -1 and 1 where `bst_insert` and `bst_update_cache_insert` ask. -/
theorem puts_inserts_iff (h : Ready t cmp rv T) (ranks : Ranks cmp rk rv) (hvalue : rv value = rk key)
    (habsent : Absent t rk rv key T) :
    (Returns (jfsBstPuts value key err) t fun err' t' => err' = err ∧ ∃ T', Inserted t rv key T t' T') ↔
      GapAnswers t cmp rk rv key :=
  ⟨fun hputs => gapAnswers_of_puts h ranks hvalue habsent (hputs.mono fun _ _ h => h.2),
    puts_inserts h ranks hvalue habsent⟩

end

/-! ### A comparator that returns the difference -/

/-- `key - value`, as comparators of small integers are often written. -/
def differenceCmp (key value : Int) : Int := key - value

theorem differenceCmp_ranks : Ranks differenceCmp id id := by
  constructor
  · intro k v
    simp only [differenceCmp, id]
    omega
  · intro k v
    simp only [differenceCmp, id]
    omega

/-- A tree with the sentinel at 8 that holds 10 at 4136, with one free slot at 4096. -/
def tenTree : Bst Int Int where
  mem := ⟨fun p => if p = 8 ∨ p = 4136 then 9 else 0, fun _ => 8, fun _ => 8, fun _ => 0,
    fun p => if p = 4168 then 10 else 0⟩
  root := 4136
  nil := 8
  cache := ⟨4136, 4136, 4136⟩
  cmp := some differenceCmp
  valueOffset := 32
  valueSize := 8
  freeList := ⟨4096, 1⟩

theorem tenTree_ready : Ready tenTree differenceCmp id (node .black leaf 4136 leaf) := by
  refine ⟨⟨⟨⟨⟨by decide, by decide, by decide, ?_⟩, rfl, ⟨⟨by decide, by decide, by decide, by decide,
    by decide, rfl, rfl⟩, trivial, trivial⟩, by simp⟩, ⟨rfl, ⟨by simp, trivial, trivial⟩, 1, 0, rfl, rfl, rfl⟩,
    rfl, by decide⟩, List.pairwise_singleton _ _, ?_⟩, by decide, by decide, by decide, by decide⟩
  · intro d
    cases d <;> decide
  · intro d
    cases d <;> decide

theorem tenTree_absent {key : Int} (hkey : key ≠ 10) :
    Absent tenTree id id key (node .black leaf 4136 leaf) := by
  intro p hp
  obtain rfl : p = 4136 := by simpa using hp
  exact fun h => hkey h.symm

/-- 11 - 10 is 1, so 11 is inserted. -/
theorem puts_inserts_iff_eleven : letI : Build := ⟨true⟩
    Returns (jfsBstPuts 11 11 .ok) tenTree fun err t' => err = .ok ∧
      ∃ T', Inserted tenTree id 11 (node .black leaf 4136 leaf) t' T' := by
  let : Build := ⟨true⟩
  refine (puts_inserts_iff tenTree_ready differenceCmp_ranks rfl (tenTree_absent (by decide))).2 ⟨?_, ?_⟩
  · intro p hp _ hlt _
    obtain rfl : p = 4136 := by simpa using tenTree_ready.holds.isLinked_iff.1 hp
    exact absurd hlt (by decide)
  · exact fun _ _ => rfl

/-- 3 - 10 is -7: `bst_find` goes left of 10, and `bst_insert` then writes the right child. -/
theorem puts_three_not_inserted : letI : Build := ⟨true⟩
    Ready tenTree differenceCmp id (node .black leaf 4136 leaf) ∧ Ranks differenceCmp id id ∧
      Absent tenTree id id 3 (node .black leaf 4136 leaf) ∧
      ¬ Returns (jfsBstPuts 3 3 .ok) tenTree fun err t' => err = .ok ∧
        ∃ T', Inserted tenTree id 3 (node .black leaf 4136 leaf) t' T' := by
  let : Build := ⟨true⟩
  have habsent := tenTree_absent (show (3 : Int) ≠ 10 by decide)
  refine ⟨tenTree_ready, differenceCmp_ranks, habsent, fun hputs => ?_⟩
  have hanswers := gapAnswers_of_puts tenTree_ready differenceCmp_ranks rfl habsent
    (hputs.mono fun _ _ h => h.2)
  have hlinked : tenTree.IsLinked 4136 := .root (by decide)
  refine absurd (hanswers.left 4136 hlinked rfl (by decide) fun q hq _ => ?_) (by decide)
  obtain rfl : q = 4136 := by simpa using tenTree_ready.holds.isLinked_iff.1 hq
  exact le_refl _

end Jcl
