/-
Module: Jcl.Proofs.Bst.Multimap
Layer: Proofs
Purpose: The tree refines the bounded multimap: whatever a run of calls returns, the multimap can return
  too. `RefinementAllowed` excludes the calls for which the code does something else: a `jfs_bst_takes`
  that the cache answers, a `jfs_bst_puts` that is not safe, and, in a build with assertions, the removal
  of the only value.
Imports: Jcl.Proofs.Bst.Runs
Trusted boundary: human-reviewed spec (RefinementAllowed)
Main exports: Contains, RefinementAllowed, Contains.step, BstInv.call_returns, tree_refines_multimap
-/
import Jcl.Proofs.Bst.Runs

namespace Jcl

open RedBlack RedBlack.RBTree TaggedWord

section

variable {K V O : Type} [LinearOrder O] {t t' : Bst K V} {cmp : K → V → Int} {rk : K → O} {rv : V → O}
  {key : K} {value v : V} {nilStorage : Addr} {conf : BstConf K V} {slots : List Addr} {op : BstOp K V}
  {out : BstOut V} {T T' : RBTree Addr} {chains chains' : Addr → List Addr} {p : Addr} {S : Multiset V}
  {log : List (BstOp K V × BstOut V)}

/-- The values of the live nodes. -/
def storedValues (t : Bst K V) (T : RBTree Addr) (chains : Addr → List Addr) : Multiset V :=
  ((live T chains).map t.valueAt : List V)

/-- The tree satisfies its invariant and stores the values `S`. -/
def Contains (slots : List Addr) (cmp : K → V → Int) (rv : V → O) (t : Bst K V) (S : Multiset V) : Prop :=
  ∃ T chains, BstInv slots [] t cmp rv T chains ∧ S = storedValues t T chains

/-- Each slot is free or holds a value. -/
theorem BstInv.count_add_card (h : BstInv slots [] t cmp rv T chains) :
    t.freeList.count.toNat + (storedValues t T chains).card = slots.length := by
  obtain ⟨free, -, hcount, hperm⟩ := h.free
  rw [hcount, ← hperm.length_eq, List.nil_append, List.length_append, storedValues, Multiset.coe_card,
    List.length_map]

theorem storedValues_eq_zero_iff : storedValues t T chains = 0 ↔ T = leaf := by
  rw [storedValues, Multiset.coe_eq_zero, List.map_eq_nil_iff, live_eq_nil_iff]

theorem BstInv.root_eq_nil_iff (h : BstInv slots [] t cmp rv T chains) : t.root = t.nil ↔ T = leaf := by
  constructor
  · intro hroot
    refine eq_leaf_of_toList (List.eq_nil_iff_forall_not_mem.2 fun p hp => ?_)
    exact h.holds.root_ne_nil hp hroot
  · rintro rfl
    exact h.holds.root

/-- A new live node adds its value. -/
theorem PutPost.contains (h : PutPost slots t cmp rv T chains value t')
    (hinv : BstInv slots [] t cmp rv T chains) (hcount : t.freeList.count ≠ 0) :
    Contains slots cmp rv t' (value ::ₘ storedValues t T chains) := by
  obtain ⟨T', chains', hinv', hperm, hvalue, -, -⟩ := h
  have hhead := hinv.head_onFreeList hcount
  have hnot := (hinv.onFreeList_iff (hinv.slot_of_onFreeList hhead)).1 hhead
  refine ⟨T', chains', hinv', ?_⟩
  have hsame : (live T chains).map t'.valueAt = (live T chains).map t.valueAt :=
    List.map_congr_left fun p hp => by
      have hne : p ≠ t.freeList.list := fun heq => hnot (heq ▸ hp)
      rw [hvalue p, t.packed_valueAt value hne]
  have hlist := hperm.map t'.valueAt
  rw [List.map_cons, hsame, hvalue, Bst.packed_valueAt_self] at hlist
  rw [storedValues, storedValues, Multiset.cons_coe, Multiset.coe_eq_coe]
  exact hlist.symm

/-- A removed node takes its value along, and that value has the rank of the linked node. -/
theorem RemovePost.contains (h : RemovePost slots t cmp rv T chains p v t')
    (hinv : BstInv slots [] t cmp rv T chains) (hp : p ∈ T.toList) :
    rv v = t.rank rv p ∧ ∃ S, Contains slots cmp rv t' S ∧ storedValues t T chains = v ::ₘ S := by
  obtain ⟨T', chains', hinv', hgroup, rfl, hperm, hvalue, -, -⟩ := h
  refine ⟨?_, storedValues t' T' chains', ⟨T', chains', hinv', rfl⟩, ?_⟩
  · rcases List.mem_cons.1 hgroup with hself | hchain
    · rw [hself, Bst.rank]
    · exact hinv.equal p hp _ hchain
  · have hsame : (live T' chains').map t'.valueAt = (live T' chains').map t.valueAt :=
      List.map_congr_left fun p _ => hvalue p
    rw [storedValues, storedValues, hsame, Multiset.cons_coe, Multiset.coe_eq_coe]
    exact hperm.map t.valueAt

/-- Every stored value has the rank of a linked node. -/
theorem BstInv.exists_rank (h : BstInv slots [] t cmp rv T chains) {w : V}
    (hw : w ∈ storedValues t T chains) : ∃ p ∈ T.toList, rv w = t.rank rv p := by
  obtain ⟨q, hq, rfl⟩ := List.mem_map.1 (Multiset.mem_coe.1 hw)
  exact h.exists_linked hq

/-- What a removal from one end of the order does to the multimap. -/
theorem RemovePost.multimapStep {d : Dir} (h : RemovePost slots t cmp rv T chains (t.cached d) v t')
    (hinv : BstInv slots [] t cmp rv T chains) (hne : t.cached d ≠ t.nil) {capacity : Nat} :
    ∃ S, MultimapStep capacity rk rv (storedValues t T chains) (.get d, .ok, some v) S ∧
      Contains slots cmp rv t' S := by
  have hmem := hinv.cached.mem hne
  obtain ⟨hrank, S, hcontains, hstored⟩ := h.contains hinv hmem
  have hedge := hinv.cached.edge_eq hmem rfl
  refine ⟨S, ?_, hcontains⟩
  have hall : ∀ w ∈ S, ∃ p ∈ T.toList, rv w = t.rank rv p := fun w hw => hinv.exists_rank (by
    rw [hstored]
    exact Multiset.mem_cons_of_mem hw)
  rw [hstored]
  cases d with
  | left =>
      refine .smallest fun w hw => ?_
      obtain ⟨p, hp, hwp⟩ := hall w hw
      rw [hwp, hrank]
      exact hinv.increasing.first_le hedge hp
  | right =>
      refine .largest fun w hw => ?_
      obtain ⟨p, hp, hwp⟩ := hall w hw
      rw [hwp, hrank]
      exact hinv.increasing.le_last hedge hp

/-- With more than one value stored, no removal stops at an assertion. -/
theorem BstInv.live_ne_singleton {capacity : UInt64} (h : BstInv slots [] t cmp rv T chains)
    (hslots : slots.length = capacity.toNat) (hcount : t.freeList.count + 1 ≠ capacity) :
    live T chains ≠ [p] := by
  intro hone
  have hcard := h.count_add_card
  rw [storedValues, hone, Multiset.coe_card, List.map_cons, List.length_cons, List.map_nil,
    List.length_nil] at hcard
  refine hcount (UInt64.toNat_inj.1 ?_)
  have hlt := capacity.toNat_lt
  rw [UInt64.toNat_add, UInt64.toNat_one, Nat.mod_eq_of_lt (by omega)]
  omega

/-- The calls on which the code does what the multimap does. `capacity` is the number of slots. -/
def RefinementAllowed [Build] (capacity : UInt64) (cmp : K → V → Int) (rk : K → O) (rv : V → O)
    (t : Bst K V) : BstOp K V → Prop
  | .puts _ key => t.freeList.count ≠ 0 →
      (t.OnFreeList t.cache.previous →
        t.cache.previous ≠ t.freeList.list ∧ t.rank rv t.cache.previous ≠ rk key) ∧
      ((∀ p, t.IsLinked p → t.rank rv p ≠ rk key) → t.mem.list t.freeList.list = null)
  | .takes key => (t.root ≠ t.nil → ¬ t.CacheHit cmp key) ∧
      (Build.asserts = true → (∃ p, t.IsLinked p ∧ t.rank rv p = rk key) → t.freeList.count + 1 ≠ capacity)
  | .getLargest => Build.asserts = true → t.freeList.count + 1 ≠ capacity
  | .getSmallest => Build.asserts = true → t.freeList.count + 1 ≠ capacity

variable [Build]

theorem RefinementAllowed.puts {capacity : UInt64} (h : RefinementAllowed capacity cmp rk rv t op)
    (ranks : Ranks cmp rk rv) (hthree : ∀ k v, cmp k v = -1 ∨ cmp k v = 0 ∨ cmp k v = 1) :
    PutsAllowed cmp rk rv t op := by
  cases op with
  | puts value key =>
      exact fun hcount => ⟨(h hcount).1, fun hfresh =>
        ⟨(h hcount).2 hfresh, .of_three ranks hthree t key⟩⟩
  | takes | getLargest | getSmallest => trivial

/-- Every call is a call of the multimap. -/
theorem Contains.step {capacity : UInt64} (h : Contains slots cmp rv t S) (ranks : Ranks cmp rk rv)
    (hthree : ∀ k v, cmp k v = -1 ∨ cmp k v = 0 ∨ cmp k v = 1) (hslots : slots.length = capacity.toNat)
    (hkeyed : op.Keyed rk rv) (hallowed : RefinementAllowed capacity cmp rk rv t op)
    (run : op.call.run t = .ok (out, t')) :
    ∃ S', MultimapStep capacity.toNat rk rv S (op, out) S' ∧ Contains slots cmp rv t' S' := by
  obtain ⟨T, chains, hinv, rfl⟩ := h
  have hcard := hinv.count_add_card
  have hsame : Contains slots cmp rv t (storedValues t T chains) := ⟨T, chains, hinv, rfl⟩
  cases hinv.outcome ranks hkeyed (hallowed.puts ranks hthree) run with
  | full hcount =>
      rw [hcount] at hcard
      exact ⟨_, .full (by simpa [hslots] using hcard), hsame⟩
  | put hcount hpost =>
      have hpos : t.freeList.count.toNat ≠ 0 := fun hzero => hcount (UInt64.toNat_inj.1 hzero)
      exact ⟨_, .put (by omega), hpost.contains hinv hcount⟩
  | empty hroot =>
      have hzero : storedValues t T chains = 0 := storedValues_eq_zero_iff.2 (hinv.root_eq_nil_iff.1 hroot)
      rw [hzero] at hsame ⊢
      exact ⟨0, .empty, hsame⟩
  | hit hroot hhit => exact absurd hhit (hallowed.1 hroot)
  | badKey hroot habsent =>
      refine ⟨_, .badKey (fun hzero => hroot ?_) (fun w hw => ?_), hsame⟩
      · exact hinv.root_eq_nil_iff.2 (storedValues_eq_zero_iff.1 hzero)
      · obtain ⟨p, hp, hwp⟩ := hinv.exists_rank hw
        rw [hwp]
        exact habsent p hp
  | taken hp hkey _ hpost =>
      obtain ⟨hrank, S, hcontains, hstored⟩ := hpost.contains hinv hp
      rw [hstored]
      exact ⟨S, .taken (hrank.trans hkey), hcontains⟩
  | @getEmpty _ d hop hnil =>
      have hnotnil : t.nil ∉ T.toList := fun hin => (hinv.holds.of_mem hin).2.1 rfl
      have hzero : storedValues t T chains = 0 :=
        storedValues_eq_zero_iff.2 ((hinv.cached.eq_nil_iff hnotnil).1 hnil)
      rw [hzero] at hsame ⊢
      subst hop
      cases d with
      | left => exact ⟨0, .noSmallest, hsame⟩
      | right => exact ⟨0, .noLargest, hsame⟩
  | got hop hne hpost =>
      subst hop
      exact hpost.multimapStep hinv hne

/-- Every such call returns. -/
theorem BstInv.call_returns {capacity : UInt64} (h : BstInv slots [] t cmp rv T chains)
    (ranks : Ranks cmp rk rv) (hthree : ∀ k v, cmp k v = -1 ∨ cmp k v = 0 ∨ cmp k v = 1)
    (hslots : slots.length = capacity.toNat) (hkeyed : op.Keyed rk rv)
    (hallowed : RefinementAllowed capacity cmp rk rv t op) :
    Returns op.call t fun _ _ => True := by
  have hget : ∀ d : Dir, (Build.asserts = true → t.freeList.count + 1 ≠ capacity) →
      Returns (jfsBstGet d .ok) t fun _ _ => True := by
    intro d hasserts
    by_cases hnil : t.cached d = t.nil
    · exact (get_empty hnil).mono fun _ _ _ => trivial
    · rw [returns_get_cached hnil]
      exact (h.remove (h.cached.mem hnil) fun ha =>
        h.live_ne_singleton hslots (hasserts ha)).mono fun _ _ _ => trivial
  cases op with
  | puts value key =>
      simp only [BstOp.call, returns_bind, returns_pure]
      by_cases hcount : t.freeList.count = 0
      · exact (puts_full hcount).mono fun _ _ _ => trivial
      · exact (h.puts ranks hkeyed hcount (hallowed.puts ranks hthree hcount)).mono fun _ _ _ => trivial
  | takes key =>
      by_cases hroot : t.root = t.nil
      · exact (takes_empty hroot).mono fun _ _ _ => trivial
      · have hmiss := hallowed.1 hroot
        by_cases hstored : ∃ p ∈ T.toList, t.rank rv p = rk key
        · obtain ⟨p, hp, hkey⟩ := hstored
          rw [BstOp.call, h.returns_takes_found ranks hmiss hp hkey]
          refine (h.remove hp fun ha => h.live_ne_singleton hslots ?_).mono fun _ _ _ => trivial
          exact hallowed.2 ha ⟨p, h.holds.isLinked_iff.2 hp, hkey⟩
        · have habsent : Absent t rk rv key T := fun p hp hkey => hstored ⟨p, hp, hkey⟩
          exact (h.takes_absent ranks hroot hmiss habsent).mono fun _ _ _ => trivial
  | getLargest => exact hget .right hallowed
  | getSmallest => exact hget .left hallowed

/-- A run of such calls is followed by the multimap. -/
theorem Contains.of_run (hc : NodeComponent conf.component nilStorage) (hconf : conf.cmp = some cmp)
    (ranks : Ranks cmp rk rv) (hthree : ∀ k v, cmp k v = -1 ∨ cmp k v = 0 ∨ cmp k v = 1)
    (run : (bstSystem nilStorage conf fun t op => op.Keyed rk rv ∧
      RefinementAllowed conf.component.desc.count cmp rk rv t op).Reaches log t) :
    ∃ S, (multimap conf.component.desc.count.toNat rk rv).Reaches log S ∧
      Contains conf.component.slots cmp rv t S := by
  have hslots : conf.component.slots.length = conf.component.desc.count.toNat := length_slots ..
  refine run.simulation ?_ ?_
  · rintro t ⟨t₀, hinit⟩
    have hspec := (jfsBstInit_spec hc.valid hconf hc.nil_ne_null (aligned_of_dvd hc.nil_aligned)).det hinit
    exact ⟨0, rfl, leaf, _, hspec.2.inv hc rv, (storedValues_eq_zero_iff.2 rfl).symm⟩
  · rintro t S ⟨op, out⟩ t' hS ⟨⟨hkeyed, hallowed⟩, hcall⟩
    exact hS.step ranks hthree hslots hkeyed hallowed hcall

/-- In every run of such calls the tree answers as the multimap with a place for each slot; the values put
    and not handed out are in it; and every further call returns. -/
theorem tree_refines_multimap (hc : NodeComponent conf.component nilStorage) (hconf : conf.cmp = some cmp)
    (ranks : Ranks cmp rk rv) (hthree : ∀ k v, cmp k v = -1 ∨ cmp k v = 0 ∨ cmp k v = 1)
    (run : (bstSystem nilStorage conf fun t op => op.Keyed rk rv ∧
      RefinementAllowed conf.component.desc.count cmp rk rv t op).Reaches log t) :
    (∃ S, (multimap conf.component.desc.count.toNat rk rv).Reaches log S ∧
      Contains conf.component.slots cmp rv t S ∧ (log.map added).sum = (log.map handedOut).sum + S) ∧
    ∀ op : BstOp K V, op.Keyed rk rv → RefinementAllowed conf.component.desc.count cmp rk rv t op →
      ∃ out t', op.call.run t = .ok (out, t') := by
  have hslots : conf.component.slots.length = conf.component.desc.count.toNat := length_slots ..
  obtain ⟨S, hrun, hcontains⟩ := Contains.of_run hc hconf ranks hthree run
  refine ⟨⟨S, hrun, hcontains, multimap_conserved hrun⟩, fun op hkeyed hallowed => ?_⟩
  obtain ⟨T, chains, hinv, -⟩ := hcontains
  obtain ⟨out, t', hcall, -⟩ := hinv.call_returns ranks hthree hslots hkeyed hallowed
  exact ⟨out, t', hcall⟩

end

/-- The value in the middle is taken: no cached node answers for it. -/
theorem tree_refines_multimap_three : letI : Build := ⟨true⟩
    ∃ t, (bstSystem 8 (sampleConf 3) fun t op => op.Keyed id id ∧
        RefinementAllowed 3 sampleCmp id id t op).Reaches
        [(.puts 6 6, .ok, none), (.puts 5 5, .ok, none), (.puts 7 7, .ok, none), (.takes 6, .ok, some 6)] t ∧
      (∃ S, (multimap 3 (id : Int → Int) id).Reaches
        [(.puts 6 6, .ok, none), (.puts 5 5, .ok, none), (.puts 7 7, .ok, none), (.takes 6, .ok, some 6)] S ∧
        Contains (sampleConf 3).component.slots sampleCmp id t S ∧ {6} + ({5} + {7}) = {6} + S) ∧
      ∀ op : BstOp Int Int, op.Keyed id id → RefinementAllowed 3 sampleCmp id id t op →
        ∃ out t', op.call.run t = .ok (out, t') := by
  let : Build := ⟨true⟩
  have run₀ : (bstSystem 8 (sampleConf 3) fun t op => op.Keyed id id ∧
      RefinementAllowed 3 sampleCmp id id t op).Reaches []
      (stateAfter (jfsBstInit 8 (sampleConf 3) .ok) sampleRecord) := reaches_init (by decide +kernel)
  have run₁ := reaches_call run₀ (.puts 6 6) (.ok, none) ⟨rfl, fun _ => ⟨fun _ => by decide +kernel,
    fun _ => by decide +kernel⟩⟩ (by decide +kernel)
  have run₂ := reaches_call run₁ (.puts 5 5) (.ok, none) ⟨rfl, fun _ => ⟨fun _ => by decide +kernel,
    fun _ => by decide +kernel⟩⟩ (by decide +kernel)
  have run₃ := reaches_call run₂ (.puts 7 7) (.ok, none) ⟨rfl, fun _ => ⟨fun _ => by decide +kernel,
    fun _ => by decide +kernel⟩⟩ (by decide +kernel)
  have run₄ := reaches_call run₃ (.takes 6) (.ok, some 6) ⟨trivial, fun _ => by decide +kernel,
    fun _ _ => by decide +kernel⟩ (by decide +kernel)
  have hrefines := tree_refines_multimap (sampleComponent 3 (by simp)) rfl sampleCmp_ranks sampleCmp_three run₄
  refine ⟨_, run₄, ?_, hrefines.2⟩
  obtain ⟨S, hrun, hcontains, hsum⟩ := hrefines.1
  exact ⟨S, hrun, hcontains, by simpa [added, handedOut, add_assoc] using hsum⟩

/-- The same value is handed out twice: the second key is answered by the cache, which removes nothing. -/
theorem tree_not_multimap : letI : Build := ⟨true⟩
    NodeComponent (sampleConf 3).component 8 ∧ Ranks sampleCmp id id ∧
    (∀ k v, sampleCmp k v = -1 ∨ sampleCmp k v = 0 ∨ sampleCmp k v = 1) ∧
    ∃ log t, (bstSystem 8 (sampleConf 3) fun _ op => op.Keyed id id).Reaches log t ∧
      log = [(.puts 5 5, .ok, none), (.takes 5, .ok, some 5), (.takes 5, .ok, some 5)] ∧
      ¬ ∃ S, (multimap 3 (id : Int → Int) id).Reaches log S := by
  let : Build := ⟨true⟩
  have run₀ : (bstSystem 8 (sampleConf 3) fun _ op => op.Keyed id id).Reaches []
      (stateAfter (jfsBstInit 8 (sampleConf 3) .ok) sampleRecord) := reaches_init (by decide +kernel)
  have run₁ := reaches_call run₀ (.puts 5 5) (.ok, none) rfl (by decide +kernel)
  have run₂ := reaches_call run₁ (.takes 5) (.ok, some 5) trivial (by decide +kernel)
  have run₃ := reaches_call run₂ (.takes 5) (.ok, some 5) trivial (by decide +kernel)
  refine ⟨sampleComponent 3 (by simp), sampleCmp_ranks, sampleCmp_three, _, _, run₃, rfl, ?_⟩
  rintro ⟨S, hrun⟩
  have hcard := congrArg Multiset.card (multimap_conserved hrun)
  simp only [added, handedOut, List.nil_append, List.cons_append, List.map_cons, List.map_nil, List.sum_cons,
    List.sum_nil, Multiset.card_add, Multiset.card_singleton, Multiset.card_zero] at hcard
  omega

end Jcl
