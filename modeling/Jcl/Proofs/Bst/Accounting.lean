/-
Module: Jcl.Proofs.Bst.Accounting
Layer: Proofs
Purpose: Where every node slot is in the reached states. `bst_insert` does not set the `list` field of a new
  node, and the cache check may match a free slot; in runs where neither happens every slot has one place.
Imports: Jcl.Proofs.Bst.Runs
Trusted boundary: human-reviewed spec (SlotsAccounted)
Main exports: Bst.OnChain, Bst.Chained, SlotsAccounted, BstInv.slotsAccounted, slots_accounted
-/
import Jcl.Proofs.Bst.Runs

namespace Jcl

open RedBlack RedBlack.RBTree TaggedWord

section

variable {K V O : Type} [LinearOrder O] {t t' : Bst K V} {cmp : K → V → Int} {rk : K → O} {rv : V → O}
  {key : K} {nilStorage : Addr} {conf : BstConf K V} {slots : List Addr} {op : BstOp K V} {out : BstOut V}
  {T : RBTree Addr} {chains : Addr → List Addr} {p q s : Addr} {log : List (BstOp K V × BstOut V)}

/-- The slot is on the chain behind the node `p`. -/
def Bst.OnChain (t : Bst K V) (p s : Addr) : Prop :=
  ∃ l, Chain t.mem.list null (t.mem.list p) l ∧ s ∈ l

/-- The slot is on the chain of a linked node. -/
def Bst.Chained (t : Bst K V) (s : Addr) : Prop := ∃ p, t.IsLinked p ∧ t.OnChain p s

/-- Each slot has one place, and the three kinds of places are intact. -/
structure SlotsAccounted (slots : List Addr) (t : Bst K V) (rv : V → O) : Prop where
  /-- A slot is on the free list, linked, or on the chain of exactly one linked node. -/
  place : ∀ s ∈ slots, (t.OnFreeList s ∧ ¬ t.IsLinked s ∧ ¬ t.Chained s) ∨
    (¬ t.OnFreeList s ∧ t.IsLinked s ∧ ¬ t.Chained s) ∨
    (¬ t.OnFreeList s ∧ ¬ t.IsLinked s ∧ ∃! p, t.IsLinked p ∧ t.OnChain p s)
  /-- Nothing but slots is in these places. -/
  slot : ∀ s, t.OnFreeList s ∨ t.IsLinked s ∨ t.Chained s → s ∈ slots
  count : ∃ free, Chain t.mem.parentColor null t.freeList.list free ∧
    t.freeList.count.toNat = free.length
  terminated : ∀ p, t.IsLinked p → ∃ l, Chain t.mem.list null (t.mem.list p) l
  disjoint : ∀ p q s, t.IsLinked p → t.IsLinked q → p ≠ q → t.OnChain p s → ¬ t.OnChain q s
  equal : ∀ p s, t.IsLinked p → t.OnChain p s → t.rank rv s = t.rank rv p

theorem BstInv.onChain_iff (h : BstInv slots [] t cmp rv T chains) (hp : p ∈ T.toList) :
    t.OnChain p s ↔ s ∈ chains p := by
  constructor
  · rintro ⟨l, hchain, hs⟩
    rwa [hchain.unique (h.chain p hp)] at hs
  · exact fun hs => ⟨chains p, h.chain p hp, hs⟩

theorem BstInv.chained_iff (h : BstInv slots [] t cmp rv T chains) :
    t.Chained s ↔ ∃ p ∈ T.toList, s ∈ chains p := by
  constructor
  · rintro ⟨p, hp, hs⟩
    have hpT := h.holds.isLinked_iff.1 hp
    exact ⟨p, hpT, (h.onChain_iff hpT).1 hs⟩
  · rintro ⟨p, hp, hs⟩
    exact ⟨p, h.holds.isLinked_iff.2 hp, (h.onChain_iff hp).2 hs⟩

/-- The live nodes are those that are linked or chained. -/
theorem BstInv.live_iff (h : BstInv slots [] t cmp rv T chains) :
    s ∈ live T chains ↔ t.IsLinked s ∨ t.Chained s := by
  rw [mem_live, h.chained_iff, h.holds.isLinked_iff]
  constructor
  · rintro ⟨p, hp, rfl | hs⟩
    · exact Or.inl hp
    · exact Or.inr ⟨p, hp, hs⟩
  · rintro (hs | ⟨p, hp, hs⟩)
    · exact ⟨s, hs, Or.inl rfl⟩
    · exact ⟨p, hp, Or.inr hs⟩

theorem BstInv.slotsAccounted (h : BstInv slots [] t cmp rv T chains) : SlotsAccounted slots t rv := by
  have hchain : ∀ {p s}, t.IsLinked p → t.OnChain p s → p ∈ T.toList ∧ s ∈ chains p := by
    intro p s hp hs
    have hpT := h.holds.isLinked_iff.1 hp
    exact ⟨hpT, (h.onChain_iff hpT).1 hs⟩
  refine ⟨fun s hs => ?_, fun s hs => ?_, ?_, fun p hp => ?_, fun p q s hp hq hne hps hqs => ?_,
    fun p s hp hs => ?_⟩
  · rw [h.onFreeList_iff hs, h.live_iff]
    by_cases hlinked : t.IsLinked s
    · right
      left
      refine ⟨fun hnot => hnot (Or.inl hlinked), hlinked, ?_⟩
      rw [h.chained_iff]
      rintro ⟨p, hp, hin⟩
      exact h.not_mem_chain (h.holds.isLinked_iff.1 hlinked) hp hin
    · by_cases hchained : t.Chained s
      · right
        right
        obtain ⟨p, hp, hps⟩ := hchained
        refine ⟨fun hnot => hnot (Or.inr ⟨p, hp, hps⟩), hlinked, p, ⟨hp, hps⟩, ?_⟩
        rintro q ⟨hq, hqs⟩
        obtain ⟨hpT, hin⟩ := hchain hp hps
        obtain ⟨hqT, hin'⟩ := hchain hq hqs
        exact h.group_unique hqT hpT (List.mem_cons_of_mem _ hin') (List.mem_cons_of_mem _ hin)
      · left
        exact ⟨fun hor => hor.elim hlinked hchained, hlinked, hchained⟩
  · rcases hs with hs | hs
    · exact h.slot_of_onFreeList hs
    · exact h.slot_of_live (h.live_iff.2 hs)
  · obtain ⟨free, hfree, hcount, -⟩ := h.free
    exact ⟨free, hfree, hcount⟩
  · exact ⟨chains p, h.chain p (h.holds.isLinked_iff.1 hp)⟩
  · obtain ⟨hpT, hin⟩ := hchain hp hps
    obtain ⟨hqT, hin'⟩ := hchain hq hqs
    exact hne (h.group_unique hpT hqT (List.mem_cons_of_mem _ hin) (List.mem_cons_of_mem _ hin'))
  · obtain ⟨hpT, hin⟩ := hchain hp hs
    exact h.equal p hpT s hin

variable [Build]

/-- In every run, from any contents of the slots, in which values are put under their own keys and puts
    are safe, all slots are accounted for. -/
theorem slots_accounted (hc : NodeComponent conf.component nilStorage) (hconf : conf.cmp = some cmp)
    (ranks : Ranks cmp rk rv)
    (run : (bstSystem nilStorage conf fun t op => op.Keyed rk rv ∧ PutsAllowed cmp rk rv t op).Reaches log t) :
    SlotsAccounted conf.component.slots t rv := by
  obtain ⟨T, chains, h⟩ := Stored.of_run hc hconf ranks (fun _ _ h => h.1) (fun _ _ _ h => h.2) run
  exact h.slotsAccounted

end

/-- A tree with one value put. -/
theorem slots_accounted_one : letI : Build := ⟨true⟩
    ∃ t, (bstSystem 8 (sampleConf 3) fun t op => op.Keyed id id ∧ PutsAllowed sampleCmp id id t op).Reaches
        [(.puts 5 5, .ok, none)] t ∧ t.root = 4176 ∧ SlotsAccounted (sampleConf 3).component.slots t id := by
  let : Build := ⟨true⟩
  let t₀ := stateAfter (jfsBstInit 8 (sampleConf 3) .ok) sampleRecord
  have run₀ : (bstSystem 8 (sampleConf 3) fun t op => op.Keyed id id ∧
      PutsAllowed sampleCmp id id t op).Reaches [] t₀ := reaches_init (by decide +kernel)
  have hsafe : PutsSafe t₀ sampleCmp id id 5 :=
    ⟨fun _ => ⟨by decide +kernel, by decide +kernel⟩, fun _ => ⟨by decide +kernel,
      .of_three sampleCmp_ranks sampleCmp_three t₀ 5⟩⟩
  have run₁ := reaches_call run₀ (.puts 5 5) (.ok, none) ⟨rfl, fun _ => hsafe⟩ (by decide +kernel)
  exact ⟨_, run₁, by decide +kernel, slots_accounted (sampleComponent 3 (by simp)) rfl sampleCmp_ranks run₁⟩

/-- The slot at 4096 comes back from the chain of the node with 5, its `list` field still set, and becomes
    the node of 7: the other value 5 is then on the chain of both. -/
theorem slots_not_accounted : letI : Build := ⟨true⟩
    NodeComponent (sampleConf 3).component 8 ∧ Ranks sampleCmp id id ∧
    ∃ log t, (bstSystem 8 (sampleConf 3) fun _ op => op.Keyed id id).Reaches log t ∧
      log.map Prod.fst = [.puts 5 5, .puts 5 5, .puts 5 5, .getSmallest, .puts 7 7] ∧
      ¬ SlotsAccounted (sampleConf 3).component.slots t id := by
  let : Build := ⟨true⟩
  have run₀ : (bstSystem 8 (sampleConf 3) fun _ op => op.Keyed id id).Reaches []
      (stateAfter (jfsBstInit 8 (sampleConf 3) .ok) sampleRecord) := reaches_init (by decide +kernel)
  have run₁ := reaches_call run₀ (.puts 5 5) (.ok, none) rfl (by decide +kernel)
  have run₂ := reaches_call run₁ (.puts 5 5) (.ok, none) rfl (by decide +kernel)
  have run₃ := reaches_call run₂ (.puts 5 5) (.ok, none) rfl (by decide +kernel)
  have run₄ := reaches_call run₃ .getSmallest (.ok, some 5) trivial (by decide +kernel)
  let t₄ := stateAfter BstOp.getSmallest.call (stateAfter (BstOp.puts 5 5).call (stateAfter
    (BstOp.puts 5 5).call (stateAfter (BstOp.puts 5 5).call (stateAfter
      (jfsBstInit 8 (sampleConf 3) .ok) sampleRecord))))
  let t₅ := stateAfter (BstOp.puts 7 7).call t₄
  have run₅ := reaches_call run₄ (.puts 7 7) (.ok, none) rfl (by decide +kernel)
  refine ⟨sampleComponent 3 (by simp), sampleCmp_ranks, _, t₅, run₅, rfl, fun h => ?_⟩
  have hlinked : t₅.IsLinked (t₅.child .right t₅.root) :=
    .child .right (.root (by decide +kernel)) (by decide +kernel)
  have hchained := h.equal (t₅.child .right t₅.root) 4136 hlinked ⟨[4136], by decide +kernel, by simp⟩
  exact absurd hchained (by decide +kernel)

end Jcl
