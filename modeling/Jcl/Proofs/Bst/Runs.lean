/-
Module: Jcl.Proofs.Bst.Runs
Layer: Proofs
Purpose: Runs of public calls on a tree that `jfs_bst_init` set up on a component, with any contents in the
  component's slots, and the invariant that holds as long as every `jfs_bst_puts` is safe.
Imports: Jcl.Spec.Multimap, Jcl.Proofs.Bst.Calls
Trusted boundary: human-reviewed spec (NodeComponent, bstSystem)
Main exports: NodeComponent, bstSystem, Initialized.inv, Outcome, BstInv.outcome, Stored, Stored.step
-/
import Jcl.Spec.Multimap
import Jcl.Proofs.Bst.Calls

namespace Jcl

open RedBlack RedBlack.RBTree TaggedWord WordAlign

/-- A component for a tree with its sentinel at `nilStorage`: valid, inside the address space, each slot
    with room for a node and placed for one, and apart from the sentinel. -/
structure NodeComponent (c : MlgComponent) (nilStorage : Addr) : Prop where
  valid : jfsMlgValidComponent c = true
  fits : c.Fits
  room : roundUp 32 c.desc.align.toNat ≤ c.desc.size.toNat
  aligned : ∀ p ∈ c.slots, 8 ∣ p.toNat
  nil_ne_null : nilStorage ≠ null
  nil_aligned : 8 ∣ nilStorage.toNat
  nil_not_mem : nilStorage ∉ c.slots

theorem aligned_of_dvd {a : UInt64} (h : 8 ∣ a.toNat) : Aligned a := by
  apply UInt64.toNat_inj.1
  rw [UInt64.toNat_and, show (1 : UInt64).toNat = 1 from rfl, Nat.and_one_is_mod]
  have : a.toNat % 2 = 0 := by omega
  rw [this]
  rfl

theorem NodeComponent.nodeSlots {c : MlgComponent} {nilStorage : Addr} (h : NodeComponent c nilStorage) :
    NodeSlots c.slots nilStorage := by
  obtain ⟨hdesc, hptr⟩ := (jfsMlgValidComponent_iff c).1 h.valid
  refine ⟨slots_nodup hdesc.size h.fits, ?_, fun p hp => ⟨?_, ?_, aligned_of_dvd (h.aligned p hp)⟩⟩
  · rw [length_slots]
    exact c.desc.count.toNat_lt
  · rintro rfl
    exact null_not_mem_slots hdesc.size h.fits hptr hp
  · rintro rfl
    exact h.nil_not_mem hp

section

variable {K V O : Type} [LinearOrder O] {t t' : Bst K V} {cmp : K → V → Int} {rk : K → O} {rv : V → O}
  {key : K} {nilStorage : Addr} {conf : BstConf K V} {slots : List Addr} {op : BstOp K V} {out : BstOut V}
  {T : RBTree Addr} {chains : Addr → List Addr} {p : Addr}

/-- All slots are on the free list after `jfs_bst_init`. -/
theorem Initialized.flInv (h : Initialized t nilStorage conf cmp t')
    (hc : NodeComponent conf.component nilStorage) :
    FlInv conf.component.slots t'.mem t'.freeList [] := by
  have hslots := hc.nodeSlots
  have hlaws : LinkLaws (NodeMemory V) (Jcl.slots conf.component.ptr conf.component.desc.size
      conf.component.desc.count.toNat) := hslots.laws
  have hlink := FlInv.link hlaws t.mem
  rw [h.freeList]
  refine hlink.congr hslots.laws fun p hp _ => ?_
  exact h.links p (hslots.node p hp).2.1

/-- The tree after `jfs_bst_init`. -/
theorem Initialized.inv (h : Initialized t nilStorage conf cmp t') (hc : NodeComponent conf.component nilStorage)
    (rv : V → O) : BstInv conf.component.slots [] t' cmp rv leaf (fun _ => []) := by
  have hdesc := ((jfsMlgValidComponent_iff _).1 hc.valid).1
  refine ⟨⟨⟨h.holds, ⟨rfl, trivial, 0, rfl⟩, h.cmp, h.offset_pos hdesc.align⟩, List.Pairwise.nil, ?_⟩, ?_,
    h.flInv hc, by simp, by simp, Or.inl ?_⟩
  · intro d
    cases d <;> simp [Bst.cached, h.cache, h.nil]
  · rw [h.nil]
    exact hc.nodeSlots
  · rw [h.cache, h.nil]

/-- A value is put under its own key. -/
def BstOp.Keyed (rk : K → O) (rv : V → O) : BstOp K V → Prop
  | .puts value key => rv value = rk key
  | _ => True

/-- A `jfs_bst_puts` that gets a slot is safe. -/
def PutsAllowed (cmp : K → V → Int) (rk : K → O) (rv : V → O) (t : Bst K V) : BstOp K V → Prop
  | .puts _ key => t.freeList.count ≠ 0 → PutsSafe t cmp rk rv key
  | _ => True

/-- The invariant of the runs. -/
def Stored (slots : List Addr) (cmp : K → V → Int) (rv : V → O) (t : Bst K V) : Prop :=
  ∃ T chains, BstInv slots [] t cmp rv T chains

/-- `jfs_bst_get_smallest` for `.left` and `jfs_bst_get_largest` for `.right`. -/
def BstOp.get : Dir → BstOp K V
  | .left => .getSmallest
  | .right => .getLargest

/-- What a call of `op` that returned `out` has done to a tree that satisfied the invariant. -/
inductive Outcome (slots : List Addr) (t : Bst K V) (cmp : K → V → Int) (rk : K → O) (rv : V → O)
    (T : RBTree Addr) (chains : Addr → List Addr) : BstOp K V → BstOut V → Bst K V → Prop where
  /-- No slot is left. -/
  | full {value : V} {key : K} (hcount : t.freeList.count = 0) :
      Outcome slots t cmp rk rv T chains (.puts value key) (.full, none) t
  | put {value : V} {key : K} {t' : Bst K V} (hcount : t.freeList.count ≠ 0) (hpost : PutPost slots t cmp rv T chains value t') :
      Outcome slots t cmp rk rv T chains (.puts value key) (.ok, none) t'
  /-- Nothing is stored. -/
  | empty {key : K} (hroot : t.root = t.nil) : Outcome slots t cmp rk rv T chains (.takes key) (.empty, none) t
  /-- The cache answers, and nothing is removed. -/
  | hit {key : K} {v : V} (hroot : t.root ≠ t.nil) (hhit : t.CacheHit cmp key) :
      Outcome slots t cmp rk rv T chains (.takes key) (.ok, some v) t
  | badKey {key : K} (hroot : t.root ≠ t.nil) (habsent : Absent t rk rv key T) :
      Outcome slots t cmp rk rv T chains (.takes key) (.bstBadKey, none) t
  | taken {key : K} {p : Addr} {v : V} {t' : Bst K V} (hp : p ∈ T.toList) (hkey : t.rank rv p = rk key) (hmiss : ¬ t.CacheHit cmp key)
      (hpost : RemovePost slots t cmp rv T chains p v t') :
      Outcome slots t cmp rk rv T chains (.takes key) (.ok, some v) t'
  | getEmpty {op : BstOp K V} {d : Dir} (hop : BstOp.get d = op) (hnil : t.cached d = t.nil) :
      Outcome slots t cmp rk rv T chains op (.empty, none) t
  | got {op : BstOp K V} {d : Dir} {v : V} {t' : Bst K V} (hop : BstOp.get d = op) (hne : t.cached d ≠ t.nil)
      (hpost : RemovePost slots t cmp rv T chains (t.cached d) v t') :
      Outcome slots t cmp rk rv T chains op (.ok, some v) t'

variable [Build]

/-- What a call does; `*err` is `JFS_OK` before it. -/
def BstOp.call : BstOp K V → BstM K V (BstOut V)
  | .puts value key => do return (← jfsBstPuts value key .ok, none)
  | .takes key => jfsBstTakes key .ok
  | .getLargest => jfsBstGetLargest .ok
  | .getSmallest => jfsBstGetSmallest .ok

/-- The runs of calls that satisfy `allowed`, from a freshly initialised tree. -/
def bstSystem (nilStorage : Addr) (conf : BstConf K V) (allowed : Bst K V → BstOp K V → Prop) :
    System (Bst K V) (BstOp K V × BstOut V) where
  init t := ∃ t₀, (jfsBstInit nilStorage conf .ok).run t₀ = .ok (.ok, t)
  step t l t' := allowed t l.1 ∧ l.1.call.run t = .ok (l.2, t')

theorem BstInv.outcome_get {d : Dir} (h : BstInv slots [] t cmp rv T chains)
    (run : (jfsBstGet d .ok).run t = .ok (out, t')) :
    Outcome slots t cmp rk rv T chains (.get d) out t' := by
  have hret : Returns (jfsBstGet d .ok) t fun o s => o = out ∧ s = t' := ⟨_, _, run, rfl, rfl⟩
  by_cases hnil : t.cached d = t.nil
  · have hempty : Returns (jfsBstGet d .ok) t fun out t' => out = (.empty, none) ∧ t' = t := get_empty hnil
    obtain ⟨rfl, rfl⟩ := hempty.det run
    exact .getEmpty rfl hnil
  · rw [returns_get_cached hnil] at hret
    obtain ⟨v, s, -, hpost, rfl, rfl⟩ := h.removed (h.cached.mem hnil) hret
    exact .got rfl hnil hpost

/-- Every call that returns has one of the outcomes, if puts are safe. -/
theorem BstInv.outcome (h : BstInv slots [] t cmp rv T chains) (ranks : Ranks cmp rk rv)
    (hkeyed : op.Keyed rk rv) (hallowed : PutsAllowed cmp rk rv t op)
    (run : op.call.run t = .ok (out, t')) : Outcome slots t cmp rk rv T chains op out t' := by
  cases op with
  | puts value key =>
      have hret : Returns (BstOp.puts value key).call t fun o s => o = out ∧ s = t' := ⟨_, _, run, rfl, rfl⟩
      simp only [BstOp.call, returns_bind, returns_pure] at hret
      by_cases hcount : t.freeList.count = 0
      · obtain ⟨err, s, -, ⟨rfl, rfl⟩, rfl, rfl⟩ := (puts_full hcount).and hret
        exact .full hcount
      · obtain ⟨err, s, -, ⟨rfl, hpost⟩, rfl, rfl⟩ :=
          (h.puts ranks hkeyed hcount (hallowed hcount)).and hret
        exact .put hcount hpost
  | takes key =>
      have hret : Returns (jfsBstTakes key .ok) t fun o s => o = out ∧ s = t' := ⟨_, _, run, rfl, rfl⟩
      by_cases hroot : t.root = t.nil
      · obtain ⟨rfl, rfl⟩ := (takes_empty hroot).det run
        exact .empty hroot
      · by_cases hhit : t.CacheHit cmp key
        · obtain ⟨⟨v, rfl⟩, rfl⟩ := (h.takes_cached hroot hhit).det run
          exact .hit hroot hhit
        · by_cases hstored : ∃ p ∈ T.toList, t.rank rv p = rk key
          · obtain ⟨p, hp, hkey⟩ := hstored
            rw [h.returns_takes_found ranks hhit hp hkey] at hret
            obtain ⟨v, s, -, hpost, rfl, rfl⟩ := h.removed hp hret
            exact .taken hp hkey hhit hpost
          · have habsent : Absent t rk rv key T := fun p hp hkey => hstored ⟨p, hp, hkey⟩
            obtain ⟨rfl, rfl⟩ := (h.takes_absent ranks hroot hhit habsent).det run
            exact .badKey hroot habsent
  | getLargest => exact h.outcome_get (d := .right) run
  | getSmallest => exact h.outcome_get (d := .left) run

/-- The invariant is kept by every call, if puts are safe. -/
theorem Stored.step (h : Stored slots cmp rv t) (ranks : Ranks cmp rk rv) (hkeyed : op.Keyed rk rv)
    (hallowed : PutsAllowed cmp rk rv t op) (run : op.call.run t = .ok (out, t')) : Stored slots cmp rv t' := by
  obtain ⟨T, chains, hinv⟩ := h
  cases hinv.outcome ranks hkeyed hallowed run with
  | full | empty | hit | badKey | getEmpty => exact ⟨T, chains, hinv⟩
  | put _ hpost =>
      obtain ⟨T', chains', hinv', -⟩ := hpost
      exact ⟨T', chains', hinv'⟩
  | taken _ _ _ hpost | got _ _ hpost =>
      obtain ⟨T', chains', hinv', -⟩ := hpost
      exact ⟨T', chains', hinv'⟩

/-- The invariant holds in every state reached by safe calls. -/
theorem Stored.of_run {allowed : Bst K V → BstOp K V → Prop} {log : List (BstOp K V × BstOut V)}
    (hc : NodeComponent conf.component nilStorage) (hconf : conf.cmp = some cmp) (ranks : Ranks cmp rk rv)
    (hkeyed : ∀ t op, allowed t op → op.Keyed rk rv)
    (hallowed : ∀ t op, Stored conf.component.slots cmp rv t → allowed t op → PutsAllowed cmp rk rv t op)
    (run : (bstSystem nilStorage conf allowed).Reaches log t) : Stored conf.component.slots cmp rv t := by
  refine run.invariant ?_ ?_
  · rintro t ⟨t₀, hinit⟩
    have hspec := (jfsBstInit_spec hc.valid hconf hc.nil_ne_null (aligned_of_dvd hc.nil_aligned)).det hinit
    exact ⟨leaf, _, hspec.2.inv hc rv⟩
  · rintro t ⟨op, out⟩ t' h ⟨hallow, hrun⟩
    exact h.step ranks (hkeyed t op hallow) (hallowed t op h hallow) hrun

/-! ### Fixed runs -/

theorem reaches_init {allowed : Bst K V → BstOp K V → Prop} {t₀ : Bst K V}
    (h : resultOf (jfsBstInit nilStorage conf .ok) t₀ = .ok .ok) :
    (bstSystem nilStorage conf allowed).Reaches [] (stateAfter (jfsBstInit nilStorage conf .ok) t₀) :=
  .init ⟨t₀, run_of_resultOf h⟩

theorem reaches_call {allowed : Bst K V → BstOp K V → Prop} {log : List (BstOp K V × BstOut V)}
    (reached : (bstSystem nilStorage conf allowed).Reaches log t) (op : BstOp K V) (out : BstOut V) (hallowed : allowed t op)
    (h : resultOf op.call t = .ok out) :
    (bstSystem nilStorage conf allowed).Reaches (log ++ [(op, out)]) (stateAfter op.call t) :=
  .step reached ⟨hallowed, run_of_resultOf h⟩

end

theorem sampleComponent (count : UInt64) (hcount : count = 1 ∨ count = 2 ∨ count = 3) :
    NodeComponent (sampleConf count).component 8 := by
  have haligned : ((sampleConf count).component.slots.all fun p => decide (8 ∣ p.toNat)) = true := by
    rcases hcount with rfl | rfl | rfl <;> decide
  have hslots : ∀ p ∈ (sampleConf count).component.slots, 8 ∣ p.toNat :=
    fun p hp => of_decide_eq_true (List.all_eq_true.1 haligned p hp)
  rcases hcount with rfl | rfl | rfl
  all_goals
    exact ⟨by decide, by decide, by decide, hslots, by decide, by decide, by decide⟩

theorem sampleCmp_ranks : Ranks sampleCmp id id := by
  constructor
  · intro k v
    unfold sampleCmp
    grind
  · intro k v
    unfold sampleCmp
    grind

theorem sampleCmp_three (k v : Int) : sampleCmp k v = -1 ∨ sampleCmp k v = 0 ∨ sampleCmp k v = 1 := by
  unfold sampleCmp
  grind

end Jcl
