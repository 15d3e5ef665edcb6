/-
Module: Jcl.Proofs.Bst.Previous
Layer: Proofs
Purpose: Where `cache.previous` points in the reached states. No removal resets it: `jfs_bst_takes` cannot
  remove the node it points to, as the cache would have answered, but `jfs_bst_get_smallest` and
  `jfs_bst_get_largest` can.
Imports: Jcl.Proofs.Bst.Accounting
Trusted boundary: human-reviewed spec (PreviousLive, PreviousAllowed)
Main exports: PreviousLive, PreviousAllowed, StoredLive, StoredLive.step, previous_live
-/
import Jcl.Proofs.Bst.Accounting

namespace Jcl

open RedBlack RedBlack.RBTree TaggedWord

section

variable {K V O : Type} [LinearOrder O] {t t' : Bst K V} {cmp : K → V → Int} {rk : K → O} {rv : V → O}
  {key : K} {nilStorage : Addr} {conf : BstConf K V} {slots : List Addr} {op : BstOp K V} {out : BstOut V}
  {T : RBTree Addr} {chains : Addr → List Addr} {p : Addr} {log : List (BstOp K V × BstOut V)}

/-- `cache.previous` points to nothing or to a stored value, and the next slot to be filled is another. -/
structure PreviousLive (t : Bst K V) : Prop where
  stored : t.cache.previous = t.nil ∨ t.IsLinked t.cache.previous ∨ t.Chained t.cache.previous
  notFree : ¬ t.OnFreeList t.cache.previous
  notNext : t.freeList.count ≠ 0 → t.cache.previous ≠ t.freeList.list

theorem BstInv.previousLive (h : BstInv slots [] t cmp rv T chains)
    (hprevious : t.cache.previous = t.nil ∨ t.cache.previous ∈ live T chains) : PreviousLive t := by
  have hnotFree : ¬ t.OnFreeList t.cache.previous := by
    intro hfree
    have hslot := h.slot_of_onFreeList hfree
    rcases hprevious with hnil | hlive
    · exact (h.nodeSlots.node _ hslot).2.1 hnil
    · exact (h.onFreeList_iff hslot).1 hfree hlive
  refine ⟨hprevious.imp_right h.live_iff.1, hnotFree, fun hcount heq => hnotFree ?_⟩
  rw [heq]
  exact h.head_onFreeList hcount

/-- A slot for a new key has a `NULL` chain and the comparator answers as the code expects; and
    `get_smallest` and `get_largest` do not remove the node that `cache.previous` points to. -/
def PreviousAllowed (cmp : K → V → Int) (rk : K → O) (rv : V → O) (t : Bst K V) : BstOp K V → Prop
  | .puts _ key => t.freeList.count ≠ 0 → (∀ p, t.IsLinked p → t.rank rv p ≠ rk key) →
      t.mem.list t.freeList.list = null ∧ GapAnswers t cmp rk rv key
  | .takes _ => True
  | .getLargest => t.cache.largest ≠ t.nil → t.removedSlot t.cache.largest ≠ t.cache.previous
  | .getSmallest => t.cache.smallest ≠ t.nil → t.removedSlot t.cache.smallest ≠ t.cache.previous

theorem PreviousAllowed.ne_previous {d : Dir} (h : PreviousAllowed cmp rk rv t op) (hop : BstOp.get d = op)
    (hne : t.cached d ≠ t.nil) : t.removedSlot (t.cached d) ≠ t.cache.previous := by
  subst hop
  cases d with
  | left => exact h hne
  | right => exact h hne

/-- The invariant with a live `cache.previous`. -/
def StoredLive (slots : List Addr) (cmp : K → V → Int) (rv : V → O) (t : Bst K V) : Prop :=
  ∃ T chains, BstInv slots [] t cmp rv T chains ∧
    (t.cache.previous = t.nil ∨ t.cache.previous ∈ live T chains)

theorem RemovePost.storedLive {v : V} (h : RemovePost slots t cmp rv T chains p v t')
    (hprevious : t.cache.previous = t.nil ∨ t.cache.previous ∈ live T chains)
    (hne : t.removedSlot p ≠ t.cache.previous) : StoredLive slots cmp rv t' := by
  obtain ⟨T', chains', hinv, -, -, hperm, -, hsame, hnil⟩ := h
  refine ⟨T', chains', hinv, ?_⟩
  rw [hsame, hnil]
  refine hprevious.imp_right fun hlive => ?_
  rcases List.mem_cons.1 (hperm.mem_iff.1 hlive) with heq | hlive'
  · exact absurd heq.symm hne
  · exact hlive'

/-- A `jfs_bst_takes` that removes a node has missed the cache, so that the node is not the cached one. -/
theorem RemovePost.ne_previous {v : V} (h : RemovePost slots t cmp rv T chains p v t')
    (hinv : BstInv slots [] t cmp rv T chains) (ranks : Ranks cmp rk rv) (hp : p ∈ T.toList)
    (hkey : t.rank rv p = rk key) (hmiss : ¬ t.CacheHit cmp key) : t.removedSlot p ≠ t.cache.previous := by
  obtain ⟨-, -, -, hgroup, -⟩ := h
  intro heq
  have hrank : t.rank rv (t.removedSlot p) = rk key := by
    rcases List.mem_cons.1 hgroup with hself | hchain
    · rw [hself, hkey]
    · rw [hinv.equal p hp _ hchain, hkey]
  have hlive : t.removedSlot p ∈ live T chains := List.mem_flatMap.2 ⟨p, hp, hgroup⟩
  refine hmiss ⟨t.cache.previous, by simp [Bst.cachedNodes], ?_, ?_⟩
  · rw [← heq]
    exact (hinv.live_ok hlive).2.1
  · rw [← heq]
    exact (ranks.zero _ _).2 hrank.symm

variable [Build]

theorem StoredLive.step (h : StoredLive slots cmp rv t) (ranks : Ranks cmp rk rv) (hkeyed : op.Keyed rk rv)
    (hallowed : PreviousAllowed cmp rk rv t op) (run : op.call.run t = .ok (out, t')) :
    StoredLive slots cmp rv t' := by
  obtain ⟨T, chains, hinv, hprevious⟩ := h
  have hputs : PutsAllowed cmp rk rv t op := by
    cases op with
    | puts value key =>
        exact fun hcount => ⟨fun hfree => absurd hfree (hinv.previousLive hprevious).notFree, hallowed hcount⟩
    | takes | getLargest | getSmallest => trivial
  cases hinv.outcome ranks hkeyed hputs run with
  | full | empty | hit | badKey | getEmpty => exact ⟨T, chains, hinv, hprevious⟩
  | put _ hpost =>
      obtain ⟨T', chains', hinv', -, -, hprevious', -⟩ := hpost
      exact ⟨T', chains', hinv', Or.inr hprevious'⟩
  | taken hp hkey hmiss hpost =>
      exact hpost.storedLive hprevious (hpost.ne_previous hinv ranks hp hkey hmiss)
  | got hop hne hpost => exact hpost.storedLive hprevious (hallowed.ne_previous hop hne)

/-- In every run in which values are put under their own keys, slots for new keys have a `NULL` chain and
    no `get_smallest` or `get_largest` removes the cached node, `cache.previous` never dangles. -/
theorem previous_live (hc : NodeComponent conf.component nilStorage) (hconf : conf.cmp = some cmp)
    (ranks : Ranks cmp rk rv)
    (run : (bstSystem nilStorage conf fun t op => op.Keyed rk rv ∧ PreviousAllowed cmp rk rv t op).Reaches
      log t) : PreviousLive t := by
  have hstored : StoredLive conf.component.slots cmp rv t := by
    refine run.invariant ?_ ?_
    · rintro t ⟨t₀, hinit⟩
      have hspec := (jfsBstInit_spec hc.valid hconf hc.nil_ne_null (aligned_of_dvd hc.nil_aligned)).det hinit
      refine ⟨leaf, _, hspec.2.inv hc rv, Or.inl ?_⟩
      rw [hspec.2.cache, hspec.2.nil]
    · rintro t ⟨op, out⟩ t' h ⟨⟨hkeyed, hallow⟩, hrun⟩
      exact h.step ranks hkeyed hallow hrun
  obtain ⟨T, chains, hinv, hprevious⟩ := hstored
  exact hinv.previousLive hprevious

end

/-- The least value is removed while the other one is cached. -/
theorem previous_live_two : letI : Build := ⟨false⟩
    ∃ t, (bstSystem 8 (sampleConf 3) fun t op => op.Keyed id id ∧ PreviousAllowed sampleCmp id id t op).Reaches
        [(.puts 5 5, .ok, none), (.puts 7 7, .ok, none), (.getSmallest, .ok, some 5)] t ∧
      t.cache.previous = 4136 ∧ PreviousLive t := by
  let : Build := ⟨false⟩
  let t₀ := stateAfter (jfsBstInit 8 (sampleConf 3) .ok) sampleRecord
  have run₀ : (bstSystem 8 (sampleConf 3) fun t op => op.Keyed id id ∧
      PreviousAllowed sampleCmp id id t op).Reaches [] t₀ := reaches_init (by decide +kernel)
  have run₁ := reaches_call run₀ (.puts 5 5) (.ok, none) ⟨rfl, fun _ _ => ⟨by decide +kernel,
    .of_three sampleCmp_ranks sampleCmp_three _ _⟩⟩ (by decide +kernel)
  have run₂ := reaches_call run₁ (.puts 7 7) (.ok, none) ⟨rfl, fun _ _ => ⟨by decide +kernel,
    .of_three sampleCmp_ranks sampleCmp_three _ _⟩⟩ (by decide +kernel)
  have run₃ := reaches_call run₂ .getSmallest (.ok, some 5) ⟨trivial, fun _ => by decide +kernel⟩
    (by decide +kernel)
  exact ⟨_, run₃, by decide +kernel, previous_live (sampleComponent 3 (by simp)) rfl sampleCmp_ranks run₃⟩

/-- The only value is put and removed: its slot is on the free list and still cached. -/
theorem previous_dangles : letI : Build := ⟨false⟩
    NodeComponent (sampleConf 3).component 8 ∧ Ranks sampleCmp id id ∧
    ∃ log t, (bstSystem 8 (sampleConf 3) fun _ op => op.Keyed id id).Reaches log t ∧
      log.map Prod.fst = [.puts 5 5, .getSmallest] ∧ ¬ PreviousLive t := by
  let : Build := ⟨false⟩
  have run₀ : (bstSystem 8 (sampleConf 3) fun _ op => op.Keyed id id).Reaches []
      (stateAfter (jfsBstInit 8 (sampleConf 3) .ok) sampleRecord) := reaches_init (by decide +kernel)
  have run₁ := reaches_call run₀ (.puts 5 5) (.ok, none) rfl (by decide +kernel)
  have run₂ := reaches_call run₁ .getSmallest (.ok, some 5) trivial (by decide +kernel)
  refine ⟨sampleComponent 3 (by simp), sampleCmp_ranks, _, _, run₂, rfl, fun h => ?_⟩
  exact h.notNext (by decide +kernel) (by decide +kernel)

end Jcl
