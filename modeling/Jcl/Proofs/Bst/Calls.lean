/-
Module: Jcl.Proofs.Bst.Calls
Layer: Proofs
Purpose: One specification for each public call on a tree, from any state that satisfies the invariant.
  `PutsSafe` is the condition under which `jfs_bst_puts` keeps it: the cache check must not take a free
  slot for a node of the tree, and a slot that becomes a node must come with a `NULL` chain.
Imports: Jcl.Proofs.Bst.WellFormed
Trusted boundary: none (fully proved)
Main exports: PutsSafe, PutPost, BstInv.puts, RemovePost, BstInv.remove, BstInv.removed, BstInv.returns_takes_found
-/
import Jcl.Proofs.Bst.WellFormed

namespace Jcl

open RedBlack RedBlack.RBTree TaggedWord

section

variable {K V O : Type} [LinearOrder O] {t t' t'' : Bst K V} {cmp : K → V → Int} {rk : K → O} {rv : V → O}
  {key : K} {value : V} {err : JclErr} {T T' : RBTree Addr} {b p q x : Addr} {slots l m : List Addr}
  {chains : Addr → List Addr}

/-- The slot is reachable from `free_list.list`. -/
def Bst.OnFreeList (t : Bst K V) (p : Addr) : Prop :=
  ∃ free, Chain t.mem.parentColor null t.freeList.list free ∧ p ∈ free

theorem BstInv.onFreeList_iff (h : BstInv slots [] t cmp rv T chains) (hp : p ∈ slots) :
    t.OnFreeList p ↔ p ∉ live T chains := by
  obtain ⟨free, hchain, -, hperm⟩ := h.free
  have hnodup := hperm.nodup_iff.2 h.nodeSlots.nodup
  constructor
  · rintro ⟨free', hchain', hin⟩ hlive
    rw [hchain'.unique hchain] at hin
    exact (List.nodup_append.1 hnodup).2.2 p hin p hlive rfl
  · intro hnot
    exact ⟨free, hchain, (List.mem_append.1 (hperm.mem_iff.2 hp)).resolve_right hnot⟩

theorem BstInv.slot_of_onFreeList (h : BstInv slots [] t cmp rv T chains) (hs : t.OnFreeList s) :
    s ∈ slots := by
  obtain ⟨free, hchain, -, hperm⟩ := h.free
  obtain ⟨free', hchain', hin⟩ := hs
  rw [hchain'.unique hchain] at hin
  exact hperm.subset (List.mem_append_left _ hin)

theorem BstInv.head_onFreeList (h : BstInv slots [] t cmp rv T chains) (hcount : t.freeList.count ≠ 0) :
    t.OnFreeList t.freeList.list := by
  obtain ⟨free, hchain, hlen, -⟩ := h.free
  cases free with
  | nil => exact absurd (UInt64.toNat_inj.1 hlen) hcount
  | cons q rest =>
      have hhead : t.freeList.list = q := hchain.1
      exact ⟨q :: rest, hchain, by simp [hhead]⟩

/-- What `jfs_bst_puts` relies on. -/
structure PutsSafe (t : Bst K V) (cmp : K → V → Int) (rk : K → O) (rv : V → O) (key : K) : Prop where
  /-- The cache check does not match a free slot: neither the one about to be filled with the value, nor
      one that still contains an equal value. -/
  previous : t.OnFreeList t.cache.previous →
    t.cache.previous ≠ t.freeList.list ∧ t.rank rv t.cache.previous ≠ rk key
  /-- A slot for a new key has a `NULL` chain, and the comparator answers as the code expects. -/
  fresh : (∀ p, t.IsLinked p → t.rank rv p ≠ rk key) →
    t.mem.list t.freeList.list = null ∧ GapAnswers t cmp rk rv key

/-- What a successful `jfs_bst_puts` leaves: one more live node, which holds the value. -/
def PutPost (slots : List Addr) (t : Bst K V) (cmp : K → V → Int) (rv : V → O) (T : RBTree Addr)
    (chains : Addr → List Addr) (value : V) (t' : Bst K V) : Prop :=
  ∃ T' chains', BstInv slots [] t' cmp rv T' chains' ∧
    (live T' chains').Perm (t.freeList.list :: live T chains) ∧
    (∀ p, t'.valueAt p = (t.packed t.freeList.list value).valueAt p) ∧
    t'.cache.previous ∈ live T' chains' ∧ t'.nil = t.nil

/-- What a removal at the linked node `p` returns and leaves: one live node less. -/
def RemovePost (slots : List Addr) (t : Bst K V) (cmp : K → V → Int) (rv : V → O) (T : RBTree Addr)
    (chains : Addr → List Addr) (p : Addr) (v : V) (t' : Bst K V) : Prop :=
  ∃ T' chains', BstInv slots [] t' cmp rv T' chains' ∧ t.removedSlot p ∈ group chains p ∧
    v = t.valueAt (t.removedSlot p) ∧ (live T chains).Perm (t.removedSlot p :: live T' chains') ∧
    (∀ q, t'.valueAt q = t.valueAt q) ∧ t'.cache.previous = t.cache.previous ∧ t'.nil = t.nil

/-- The same tree in memory, with other values. -/
theorem GapAnswers.congr (h : GapAnswers t cmp rk rv key) (hholds : Holds t T) (hholds' : Holds t' T)
    (hnil : t'.nil = t.nil) (hchild : ∀ p, t'.child .left p = t.child .left p)
    (hlargest : t'.cache.largest = t.cache.largest) (hmem : t.cache.largest ≠ t.nil → t.cache.largest ∈ T.toList)
    (hvalue : ∀ p ∈ T.toList, t'.valueAt p = t.valueAt p) : GapAnswers t' cmp rk rv key := by
  have hrank : ∀ p ∈ T.toList, t'.rank rv p = t.rank rv p := fun p hp => by
    rw [Bst.rank, Bst.rank, hvalue p hp]
  constructor
  · intro p hp hleft hlt hleast
    have hpT := hholds'.isLinked_iff.1 hp
    rw [hvalue p hpT]
    refine h.left p (hholds.isLinked_iff.2 hpT) ((hchild p).symm.trans (hleft.trans hnil))
      (hrank p hpT ▸ hlt) fun q hq hqlt => ?_
    have hqT := hholds.isLinked_iff.1 hq
    rw [← hrank p hpT, ← hrank q hqT]
    exact hleast q (hholds'.isLinked_iff.2 hqT) (hrank q hqT ▸ hqlt)
  · intro hne hlt
    rw [hlargest, hnil] at hne
    rw [hlargest, hrank _ (hmem hne)] at hlt
    rw [hlargest, hvalue _ (hmem hne)]
    exact h.right hne hlt

theorem BstInv.largest_mem {out : List Addr} (h : BstInv slots out t cmp rv T chains)
    (hne : t.cache.largest ≠ t.nil) : t.cache.largest ∈ T.toList := h.cached.mem (d := .right) hne

theorem BstInv.smallest_mem {out : List Addr} (h : BstInv slots out t cmp rv T chains)
    (hne : t.cache.smallest ≠ t.nil) : t.cache.smallest ∈ T.toList := h.cached.mem (d := .left) hne

/-- The slot in hand has become a live node. -/
def StoredPost (slots : List Addr) (t : Bst K V) (cmp : K → V → Int) (rv : V → O) (T : RBTree Addr)
    (chains : Addr → List Addr) (x : Addr) (t' : Bst K V) : Prop :=
  ∃ T' chains', BstInv slots [] t' cmp rv T' chains' ∧ (live T' chains').Perm (x :: live T chains) ∧
    (∀ p, t'.valueAt p = t.valueAt p) ∧ t'.cache.previous ∈ live T' chains' ∧ t'.nil = t.nil

/-- The end of `jfs_bst_puts` for a key that is stored already. -/
theorem BstInv.attach_stored (h : BstInv slots [x] t cmp rv T chains) (hb : b ∈ live T chains)
    (hrank : t.rank rv x = t.rank rv b) (hp : p = b ∨ p = x) :
    b ≠ null ∧ x ≠ null ∧ StoredPost slots t cmp rv T chains x
      { t.attached b x with cache := { t.cache with previous := p } } := by
  obtain ⟨chains', hinv, hperm⟩ := h.attached hb hrank
  have hxslot := h.slot_of_out (p := x) (by simp)
  have hlive : p ∈ live T chains' := by
    rw [hperm.mem_iff, List.mem_cons]
    rcases hp with rfl | rfl
    · exact Or.inr hb
    · exact Or.inl rfl
  exact ⟨(h.live_ok hb).1, (h.nodeSlots.node x hxslot).1, T, chains',
    hinv.withPrevious (hinv.slot_of_live hlive), hperm, fun _ => rfl, hlive, rfl⟩

theorem live_eq_singleton (hone : live T chains = [p]) : T.toList = [p] ∧ chains p = [] := by
  cases hT : T.toList with
  | nil => simp [live, hT] at hone
  | cons q l =>
      rw [live, hT, List.flatMap_cons, group, List.cons_append] at hone
      obtain ⟨rfl, hrest⟩ := List.cons.inj hone
      obtain ⟨hchain, htail⟩ := List.append_eq_nil_iff.1 hrest
      cases l with
      | nil => exact ⟨rfl, hchain⟩
      | cons r l => simp [group] at htail

variable [Build]

/-- With all slots in use nothing happens. -/
theorem puts_full (hcount : t.freeList.count = 0) :
    Returns (jfsBstPuts value key err) t fun err' t' => err' = .full ∧ t' = t := by
  simp only [jfsBstPuts, returns_bind, returns_get, returns_ite, returns_pure]
  exact ⟨fun _ => ⟨trivial, trivial⟩, fun hne => absurd hcount hne⟩

/-- The end of `jfs_bst_puts` for a new key. -/
theorem BstInv.insert_stored {location : BstLocation} (h : BstInv slots [x] t cmp rv T chains)
    (ranks : Ranks cmp rk rv) (hrank : t.rank rv x = rk key) (habsent : Absent t rk rv key T)
    (hanswers : GapAnswers t cmp rk rv key) (hlist : t.mem.list x = null)
    (hfound : FoundAt t (probe t cmp key) (gapCtx t cmp key T) leaf location) :
    Returns (bstInsert x location) t fun _ t₁ => Returns (bstUpdateCacheInsert location) t₁ fun _ t₂ =>
      StoredPost slots t cmp rv T chains x { t₂ with cache := { t₂.cache with previous := x } } := by
  have hinsert := h.insert ranks hrank habsent hanswers hlist hfound
  rw [returns_bind] at hinsert
  refine hinsert.mono fun _ t₁ ht₁ => ht₁.mono fun _ t₂ ht₂ => ?_
  obtain ⟨T', chains', hinv, hperm, hrelinks⟩ := ht₂
  have hlive : x ∈ live T' chains' := by
    rw [hperm.mem_iff]
    exact List.mem_cons_self
  exact ⟨T', chains', hinv.withPrevious (hinv.slot_of_live hlive), hperm, hrelinks.valueAt, hlive,
    hrelinks.nil⟩

/-- `jfs_bst_puts` from the cache check on, with the value packed into the slot `x`. -/
theorem BstInv.puts_packed (h : BstInv slots [x] t cmp rv T chains) (ranks : Ranks cmp rk rv)
    (hrank : t.rank rv x = rk key)
    (hprevious : t.cache.previous ≠ t.nil → t.rank rv t.cache.previous = rk key →
      t.cache.previous ∈ live T chains)
    (hfresh : Absent t rk rv key T → t.mem.list x = null ∧ GapAnswers t cmp rk rv key) :
    Returns (do
      let cachedNode ← bstCheckCache key
      if cachedNode ≠ (← get).nil then
        treeAttach (← bstContainerValue cachedNode) (x + t.valueOffset)
        modify fun t => { t with cache := { t.cache with previous := cachedNode } }
        return err
      let location ← bstFind key
      if location.node ≠ (← get).nil then
        treeAttach (← bstContainerValue location.node) (x + t.valueOffset)
      else
        bstInsert x location
        bstUpdateCacheInsert location
      modify fun t => { t with cache := { t.cache with previous := x } }
      return err) t fun err' t' => err' = err ∧ StoredPost slots t cmp rv T chains x t' := by
  simp only [returns_bind, returns_get, returns_ite, returns_pure, returns_modify]
  refine (bstCheckCache_spec h.cmp h.offset).mono fun c t₁ hc => ?_
  obtain ⟨rfl, ⟨hne, hcached, hzero⟩ | ⟨rfl, hmiss⟩⟩ := hc
  · -- A cached node matches.
    have heq : t₁.rank rv c = rk key := ((ranks.zero _ _).1 hzero).symm
    have hlive : c ∈ live T chains := by
      simp only [Bst.cachedNodes, List.mem_cons, List.not_mem_nil, or_false] at hcached
      rcases hcached with rfl | rfl | rfl
      · exact hprevious hne heq
      · exact mem_live_of_mem (h.largest_mem hne)
      · exact mem_live_of_mem (h.smallest_mem hne)
    refine ⟨fun _ => ?_, fun hnot => absurd hne hnot⟩
    rw [returns_bstContainerValue h.offset, returns_treeAttach]
    obtain ⟨hcnull, hxnull, hpost⟩ := h.attach_stored hlive (hrank.trans heq.symm) (Or.inl rfl)
    exact ⟨hcnull, hxnull, trivial, hpost⟩
  · refine ⟨fun hnot => absurd rfl hnot, fun _ => ?_⟩
    by_cases hstored : ∃ p ∈ T.toList, t₁.rank rv p = rk key
    · -- The key is found in the tree.
      obtain ⟨p, hp, hkey⟩ := hstored
      refine (bstFind_found h.toTreeOk h.increasing ranks hp hkey).mono fun location t₂ ht₂ => ?_
      obtain ⟨rfl, rfl⟩ := ht₂
      refine ⟨fun _ => ?_, fun hnil => absurd (h.holds.of_mem hp).2.1 hnil⟩
      rw [returns_bstContainerValue h.offset, returns_treeAttach]
      obtain ⟨hpnull, hxnull, hpost⟩ :=
        h.attach_stored (mem_live_of_mem hp) (hrank.trans hkey.symm) (Or.inr rfl)
      exact ⟨hpnull, hxnull, trivial, hpost⟩
    · -- The key is new.
      have habsent : Absent t₁ rk rv key T := fun p hp hkey => hstored ⟨p, hp, hkey⟩
      obtain ⟨hlist, hanswers⟩ := hfresh habsent
      refine (bstFind_absent h.toTreeOk ranks habsent).mono fun location t₂ ht₂ => ?_
      obtain ⟨rfl, hfound⟩ := ht₂
      refine ⟨fun hne => absurd hfound.node hne, fun _ => ?_⟩
      refine (h.insert_stored ranks hrank habsent hanswers hlist hfound).mono fun _ t₃ ht₃ =>
        ht₃.mono fun _ t₄ ht₄ => ⟨trivial, ht₄⟩

theorem BstInv.puts (h : BstInv slots [] t cmp rv T chains) (ranks : Ranks cmp rk rv)
    (hvalue : rv value = rk key) (hcount : t.freeList.count ≠ 0) (hsafe : PutsSafe t cmp rk rv key) :
    Returns (jfsBstPuts value key err) t fun err' t' => err' = err ∧
      PutPost slots t cmp rv T chains value t' := by
  simp only [jfsBstPuts, returns_ite, returns_bind, returns_get]
  refine ⟨fun hzero => absurd hzero hcount, fun _ => (h.alloc hcount).mono fun x t₁ ht₁ => ?_⟩
  obtain ⟨rfl, h₁, fl, rfl⟩ := ht₁
  rw [returns_bstPackNode h₁.offset]
  have h₂ := h₁.packed value
  have hhead : t.freeList.list ∉ live T chains := h₁.not_live (by simp)
  have hsame : ∀ p ∈ live T chains, (t.packed t.freeList.list value).valueAt p = t.valueAt p :=
    fun p hp => t.packed_valueAt value fun heq => hhead (heq ▸ hp)
  have hself : (t.packed t.freeList.list value).rank rv t.freeList.list = rk key := by
    rw [Bst.rank, t.packed_valueAt_self, hvalue]
  have hprevious : t.cache.previous ≠ t.nil →
      (t.packed t.freeList.list value).rank rv t.cache.previous = rk key →
        t.cache.previous ∈ live T chains := by
    intro hne hkey
    by_contra hnot
    have hslot := h.previous.resolve_left hne
    obtain ⟨hhead', hkey'⟩ := hsafe.previous ((h.onFreeList_iff hslot).2 hnot)
    rw [Bst.rank, t.packed_valueAt value hhead'] at hkey
    exact hkey' hkey
  have hfresh : Absent (t.packed t.freeList.list value) rk rv key T →
      t.mem.list t.freeList.list = null ∧
        GapAnswers ({ t with freeList := fl }.packed t.freeList.list value) cmp rk rv key := by
    intro habsent
    obtain ⟨hlist, hanswers⟩ := hsafe.fresh fun p hp => by
      have hpT := h.holds.isLinked_iff.1 hp
      rw [Bst.rank, ← hsame p (mem_live_of_mem hpT)]
      exact habsent p hpT
    exact ⟨hlist, hanswers.congr h.holds h₂.holds rfl (fun _ => rfl) rfl h.largest_mem
      fun p hp => hsame p (mem_live_of_mem hp)⟩
  have hpost : Returns _ _ fun err' t' => err' = err ∧ _ := h₂.puts_packed ranks hself hprevious hfresh
  simp only [returns_ite, returns_bind, returns_get] at hpost
  exact hpost

/-! ### Removals -/

/-- `bst_detach_and_delete` of a linked node. A build with assertions stops when it removes the only
    stored value. -/
theorem BstInv.remove (h : BstInv slots [] t cmp rv T chains) (hp : p ∈ T.toList)
    (hlast : Build.asserts = true → live T chains ≠ [p]) :
    Returns (bstDetachAndDelete p) t fun v t' => RemovePost slots t cmp rv T chains p v t' := by
  have hpok := h.holds.of_mem hp
  have hroot : t.root ≠ t.nil := h.holds.root_ne_nil hp
  simp only [bstDetachAndDelete, returns_bind, returns_get, returns_assert, returns_ite, returns_pure]
  refine ⟨fun _ => by simpa using hroot, ?_⟩
  rw [returns_bstContainerValue h.offset, returns_treeDetach h.offset]
  refine ⟨hpok.1, fun hnull => ⟨fun _ => ?_, fun hne => absurd rfl hne⟩, fun hne => ⟨fun heq => ?_, fun _ => ?_⟩⟩
  · -- Nothing is on the chain: the node itself is taken out of the tree.
    have hremoved : t.removedSlot p = p := if_pos hnull
    have hdelete := h.delete hp hnull hlast
    rw [returns_bind] at hdelete
    refine hdelete.mono fun _ t₁ ht₁ => ht₁.mono fun _ t₂ ht₂ => ?_
    obtain ⟨T', h₂, hperm, hrelinks⟩ := ht₂
    refine h₂.freed.mono fun _ t₃ ht₃ => ?_
    obtain ⟨h₃, pc, fl, rfl⟩ := ht₃
    refine ⟨T', chains, h₃, ?_, ?_, ?_, hrelinks.valueAt, hrelinks.previous, hrelinks.nil⟩
    · rw [hremoved]
      exact List.mem_cons_self
    · rw [hremoved]
      rfl
    · rw [hremoved]
      exact hperm
  · -- The first node of the chain is another node.
    have hsame : t.mem.list p = p := by simpa using heq
    obtain ⟨chains', h₁, hin, -⟩ := h.detached hp hne
    rw [hsame] at hin
    exact absurd hin (h.not_mem_chain hp hp)
  · have hremoved : t.removedSlot p = t.mem.list p := if_neg hne
    obtain ⟨chains', h₁, hin, hperm⟩ := h.detached hp hne
    have hnode : t.mem.list p + t.valueOffset = t.mem.list p + (t.detached p).valueOffset := rfl
    rw [hnode, returns_bstContainerNode]
    refine h₁.freed.mono fun _ t₂ ht₂ => ?_
    obtain ⟨h₂, pc, fl, rfl⟩ := ht₂
    refine ⟨T, chains', h₂, ?_, ?_, ?_, fun _ => rfl, rfl, rfl⟩
    · rw [hremoved]
      exact List.mem_cons_of_mem _ hin
    · rw [hremoved]
      rfl
    · rw [hremoved]
      exact hperm

/-- With assertions, removing the only stored value stops at `assert(node == tree->root)`: the tree is
    empty by then. -/
theorem BstInv.remove_fails {Q : V → Bst K V → Prop} (h : BstInv slots [] t cmp rv T chains)
    (hp : p ∈ T.toList) (hasserts : Build.asserts = true) (hone : live T chains = [p]) :
    ¬ Returns (bstDetachAndDelete p) t Q := by
  obtain ⟨hlist, hchain⟩ := live_eq_singleton hone
  have hnull : t.mem.list p = null := by
    have := h.chain p hp
    rwa [hchain] at this
  have hwf : WellFormed t T := ⟨h.holds, h.redBlack⟩
  exact (hwf.remove_fails hasserts h.cached h.offset hnull hlist).not_returns

/-- A removal that returns does what it should. -/
theorem BstInv.removed {Q : V → Bst K V → Prop} (h : BstInv slots [] t cmp rv T chains)
    (hp : p ∈ T.toList) (hret : Returns (bstDetachAndDelete p) t Q) :
    Returns (bstDetachAndDelete p) t fun v t' => RemovePost slots t cmp rv T chains p v t' ∧ Q v t' := by
  by_cases hlast : Build.asserts = true → live T chains ≠ [p]
  · exact (h.remove hp hlast).and hret
  · simp only [not_forall, not_not, exists_prop] at hlast
    exact absurd hret (h.remove_fails hp hlast.1 hlast.2)

theorem takes_empty (hroot : t.root = t.nil) :
    Returns (jfsBstTakes key err) t fun out t' => out = (.empty, none) ∧ t' = t := by
  simp only [jfsBstTakes, returns_bind, returns_get, returns_ite, returns_pure]
  exact ⟨fun _ => ⟨trivial, trivial⟩, fun hne => absurd hroot hne⟩

/-- A value found through the cache is returned and stays where it is. -/
theorem BstInv.takes_cached {out : List Addr} (h : BstInv slots out t cmp rv T chains) (hroot : t.root ≠ t.nil)
    (hhit : t.CacheHit cmp key) :
    Returns (jfsBstTakes key err) t fun out t' => (∃ v, out = (err, some v)) ∧ t' = t := by
  simp only [jfsBstTakes, returns_bind, returns_get, returns_ite, returns_pure]
  refine ⟨fun heq => absurd heq hroot, fun _ => (bstCheckCache_spec h.cmp h.offset).mono fun c t₁ hc => ?_⟩
  obtain ⟨rfl, ⟨hne, -, -⟩ | ⟨rfl, hmiss⟩⟩ := hc
  · refine ⟨fun _ => ?_, fun hnot => absurd hne hnot⟩
    simp only [bstUnpackNode, returns_bind, returns_get, returns_pure]
    rw [returns_bstContainerValue h.offset]
    exact ⟨⟨_, rfl⟩, rfl⟩
  · exact absurd hhit hmiss

/-- A key that is not stored. -/
theorem BstInv.takes_absent {out : List Addr} (h : BstInv slots out t cmp rv T chains) (ranks : Ranks cmp rk rv)
    (hroot : t.root ≠ t.nil) (hmiss : ¬ t.CacheHit cmp key) (habsent : Absent t rk rv key T) :
    Returns (jfsBstTakes key err) t fun out t' => out = (.bstBadKey, none) ∧ t' = t := by
  simp only [jfsBstTakes, returns_bind, returns_get, returns_ite, returns_pure]
  refine ⟨fun heq => absurd heq hroot, fun _ => (bstCheckCache_spec h.cmp h.offset).mono fun c t₁ hc => ?_⟩
  obtain ⟨rfl, ⟨hne, hcached, hzero⟩ | ⟨rfl, -⟩⟩ := hc
  · exact absurd ⟨c, hcached, hne, hzero⟩ hmiss
  · refine ⟨fun hnot => absurd rfl hnot, fun _ => ?_⟩
    refine (bstFind_absent h.toTreeOk ranks habsent).mono fun location t₂ ht₂ => ?_
    obtain ⟨rfl, hfound⟩ := ht₂
    exact ⟨fun _ => ⟨trivial, rfl⟩, fun hne => absurd hfound.node hne⟩

/-- A stored key that the cache does not answer. -/
theorem BstInv.returns_takes_found {Q : JclErr × Option V → Bst K V → Prop}
    (h : BstInv slots [] t cmp rv T chains) (ranks : Ranks cmp rk rv) (hmiss : ¬ t.CacheHit cmp key)
    (hp : p ∈ T.toList) (hkey : t.rank rv p = rk key) :
    Returns (jfsBstTakes key err) t Q ↔ Returns (bstDetachAndDelete p) t fun v t' => Q (err, some v) t' := by
  have hcheck : Returns (bstCheckCache key) t fun c s => c = t.nil ∧ s = t := by
    refine (bstCheckCache_spec h.cmp h.offset).mono fun c s hc => ?_
    obtain ⟨rfl, ⟨hne, hcached, hzero⟩ | ⟨rfl, -⟩⟩ := hc
    · exact absurd ⟨c, hcached, hne, hzero⟩ hmiss
    · exact ⟨rfl, rfl⟩
  obtain ⟨location, t₁, hrun, rfl, rfl⟩ := bstFind_found h.toTreeOk h.increasing ranks hp hkey
  have hfind : Returns (bstFind key) t₁ fun l s => l = location ∧ s = t₁ := ⟨location, t₁, hrun, rfl, rfl⟩
  simp only [jfsBstTakes, returns_bind, returns_get, returns_ite, returns_pure, h.holds.root_ne_nil hp,
    false_imp_iff, not_false_eq_true, true_imp_iff, true_and]
  rw [hcheck.iff_of_eq, hfind.iff_of_eq]
  simp [(h.holds.of_mem hp).2.1]

/-- `jfs_bst_get_smallest` for `.left` and `jfs_bst_get_largest` for `.right`. -/
def jfsBstGet (d : Dir) (err : JclErr) : BstM K V (JclErr × Option V) :=
  match d with
  | .left => jfsBstGetSmallest err
  | .right => jfsBstGetLargest err

theorem get_empty {d : Dir} (hnil : t.cached d = t.nil) :
    Returns (jfsBstGet d err) t fun out t' => out = (.empty, none) ∧ t' = t := by
  cases d with
  | left =>
      simp only [jfsBstGet, jfsBstGetSmallest, returns_bind, returns_get, returns_ite, returns_pure]
      exact ⟨fun _ => ⟨trivial, trivial⟩, fun hne => absurd hnil hne⟩
  | right =>
      simp only [jfsBstGet, jfsBstGetLargest, returns_bind, returns_get, returns_ite, returns_pure]
      exact ⟨fun _ => ⟨trivial, trivial⟩, fun hne => absurd hnil hne⟩

theorem returns_get_cached {d : Dir} {Q : JclErr × Option V → Bst K V → Prop} (hne : t.cached d ≠ t.nil) :
    Returns (jfsBstGet d err) t Q ↔
      Returns (bstDetachAndDelete (t.cached d)) t fun v t' => Q (err, some v) t' := by
  cases d with
  | left =>
      have hne' : t.cache.smallest ≠ t.nil := hne
      simp [jfsBstGet, jfsBstGetSmallest, returns_ite, hne', Bst.cached]
  | right =>
      have hne' : t.cache.largest ≠ t.nil := hne
      simp [jfsBstGet, jfsBstGetLargest, returns_ite, hne', Bst.cached]

end

end Jcl
