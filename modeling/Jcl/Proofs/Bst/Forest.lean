/-
Module: Jcl.Proofs.Bst.Forest
Layer: Proofs
Purpose: Any number of trees in one memory, initialised and called in any order, while something else writes elsewhere.
  No call on one tree is seen by another: each tree is a bounded multimap of its own.
Imports: Jcl.Lib.System, Jcl.Proofs.Bst.Locality
Trusted boundary: human-reviewed spec (Forest, TreeEvent, ForestStep, multimapEvents, Grounds)
Main exports: Forest, ForestStep, forestSystem, multimapEvents, Grounds, trees_apart
-/
import Jcl.Lib.System
import Jcl.Proofs.Bst.Locality

namespace Jcl

open RedBlack RedBlack.RBTree TaggedWord WordAlign

/-- The memory that trees share, and what their records say beside it. -/
structure Forest (ι K V : Type) where
  mem : NodeMemory V
  trees : ι → Option (Bst K V)

/-- What happens to a tree: `jfs_bst_init`, or a call with what it returned. -/
inductive TreeEvent (K V : Type) where
  | init
  | call (op : BstOp K V) (out : BstOut V)

section

variable {ι K V O : Type}

/-- A tree as a call finds it. -/
def Forest.tree (s : Forest ι K V) (i : ι) : Option (Bst K V) := (s.trees i).map fun t => { t with mem := s.mem }

/-- A multimap that is initialised at any time, which empties it. -/
inductive MultimapEvent [LinearOrder O] (capacity : Nat) (rk : K → O) (rv : V → O) :
    Option (Multiset V) → TreeEvent K V → Option (Multiset V) → Prop where
  | init {S : Option (Multiset V)} : MultimapEvent capacity rk rv S .init (some 0)
  | call {S S' : Multiset V} {op : BstOp K V} {out : BstOut V} (h : MultimapStep capacity rk rv S (op, out) S') :
      MultimapEvent capacity rk rv (some S) (.call op out) (some S')

def multimapEvents [LinearOrder O] (capacity : Nat) (rk : K → O) (rv : V → O) :
    System (Option (Multiset V)) (TreeEvent K V) where
  init S := S = none
  step := MultimapEvent capacity rk rv

variable [DecidableEq ι]

/-- The forest after an event of the tree `i`. -/
def Forest.set (s : Forest ι K V) (i : ι) (t : Bst K V) : Forest ι K V where
  mem := t.mem
  trees := Function.update s.trees i (some t)

/-- The event of the tree `i`, if this is one. -/
def eventOf (i : ι) : Option (ι × TreeEvent K V) → Option (TreeEvent K V)
  | some (j, event) => if j = i then some event else none
  | none => none

/-- An event of a tree, or a write that changes no node of a tree. -/
inductive ForestStep [Build] (confs : ι → BstConf K V) (nils : ι → Addr) (allowed : ι → Bst K V → BstOp K V → Prop) :
    Forest ι K V → Option (ι × TreeEvent K V) → Forest ι K V → Prop where
  | init {s : Forest ι K V} {i : ι} {t t' : Bst K V} (hmem : t.mem = s.mem)
      (run : (jfsBstInit (nils i) (confs i) .ok).run t = .ok (.ok, t')) :
      ForestStep confs nils allowed s (some (i, .init)) (s.set i t')
  | call {s : Forest ι K V} {i : ι} {t t' : Bst K V} {op : BstOp K V} {out : BstOut V} (htree : s.tree i = some t)
      (hallowed : allowed i t op) (run : op.call.run t = .ok (out, t')) :
      ForestStep confs nils allowed s (some (i, .call op out)) (s.set i t')
  | write {s : Forest ι K V} {mem : NodeMemory V} (hsame : ∀ i t, s.tree i = some t →
      s.mem.Same (confs i).component.slots t.nil t.valueOffset mem) :
      ForestStep confs nils allowed s none { s with mem := mem }

/-- The runs from any memory, without trees. -/
def forestSystem [Build] (confs : ι → BstConf K V) (nils : ι → Addr) (allowed : ι → Bst K V → BstOp K V → Prop) :
    System (Forest ι K V) (Option (ι × TreeEvent K V)) where
  init s := s.trees = fun _ => none
  step := ForestStep confs nils allowed

/-- Components and sentinels that do not overlap. -/
structure Grounds (confs : ι → BstConf K V) (nils : ι → Addr) : Prop where
  node : ∀ i, NodeComponent (confs i).component (nils i)
  space : ∀ i, NodeSpace (confs i).component (nils i)
  components : ∀ i j, i ≠ j → (confs i).component.region.stop ≤ (confs j).component.region.start ∨
    (confs j).component.region.stop ≤ (confs i).component.region.start
  sentinels : ∀ i j, i ≠ j → (nils i).toNat + 32 ≤ (nils j).toNat ∨ (nils j).toNat + 32 ≤ (nils i).toNat
  apart : ∀ i j, i ≠ j → (nils i).toNat + 32 ≤ (confs j).component.region.start ∨
    (confs j).component.region.stop ≤ (nils i).toNat

variable {confs : ι → BstConf K V} {nils : ι → Addr} {i j : ι} {s s' : Forest ι K V} {t t' : Bst K V} {p q : Addr}

/-! ### The nodes of two trees -/

omit [DecidableEq ι] in
theorem Grounds.slot_bounds (h : Grounds confs nils) (hp : p ∈ (confs i).component.slots) :
    (confs i).component.region.start ≤ p.toNat ∧
      p.toNat + (confs i).component.desc.size.toNat ≤ (confs i).component.region.stop :=
  (h.space i).slot_bounds hp

omit [DecidableEq ι] in
/-- No word belongs to two trees. -/
theorem Grounds.nodes_apart (h : Grounds confs nils) (hne : i ≠ j) (hq : q ∈ nils j :: (confs j).component.slots) :
    q ∉ nils i :: (confs i).component.slots := by
  intro hp
  have hsize : ∀ k, 0 < (confs k).component.desc.size.toNat := fun k => (h.space k).size_pos
  have hi := hsize i
  have hj := hsize j
  rcases List.mem_cons.1 hp with hpnil | hpslot
  · rcases List.mem_cons.1 hq with hqnil | hqslot
    · have hapart := h.sentinels i j hne
      rw [← hpnil, ← hqnil] at hapart
      omega
    · have hapart := h.apart i j hne
      have hbounds := h.slot_bounds hqslot
      rw [← hpnil] at hapart
      omega
  · have hbounds := h.slot_bounds hpslot
    rcases List.mem_cons.1 hq with hqnil | hqslot
    · have hapart := h.apart j i hne.symm
      rw [← hqnil] at hapart
      omega
    · have hbounds' := h.slot_bounds hqslot
      have hapart := h.components i j hne
      omega

omit [DecidableEq ι] in
/-- The value of a slot is in the slot. -/
theorem Grounds.value_bounds (h : Grounds confs nils) {valueOffset : UInt64}
    (hoff : valueOffset.toNat = roundUp 32 (confs i).component.desc.align.toNat)
    (hp : p ∈ (confs i).component.slots) : (confs i).component.region.start ≤ (p + valueOffset).toNat ∧
      (p + valueOffset).toNat < (confs i).component.region.stop := by
  have hbounds := h.slot_bounds hp
  have hroom := (h.space i).room
  have hfits : (confs i).component.region.stop ≤ 2 ^ 64 := (h.space i).fits
  rw [← hoff] at hroom
  rw [UInt64.toNat_add, Nat.mod_eq_of_lt (by omega)]
  omega

omit [DecidableEq ι] in
/-- What stays at one tree leaves the nodes of another as they are. -/
theorem Grounds.same (h : Grounds confs nils) (hne : i ≠ j) {m m' : NodeMemory V} {valueOffset valueOffset' : UInt64}
    (hoff : valueOffset.toNat = roundUp 32 (confs i).component.desc.align.toNat)
    (hoff' : valueOffset'.toNat = roundUp 32 (confs j).component.desc.align.toNat)
    (hconfined : m.Confined (confs i).component.slots (nils i) valueOffset m') :
    m.Same (confs j).component.slots (nils j) valueOffset' m' := by
  refine hconfined.same (fun q hq => h.nodes_apart hne hq) fun q hq p hp heq => ?_
  have hvalue := h.value_bounds hoff hp
  have hvalue' := h.value_bounds hoff' hq
  rw [heq] at hvalue'
  have hapart := h.components i j hne
  omega

/-! ### What a state shows of a tree -/

theorem Forest.tree_set_self : (s.set i t).tree i = some t := by
  simp [Forest.tree, Forest.set]

theorem Forest.tree_set_of_ne (hne : j ≠ i) :
    (s.set i t).tree j = (s.tree j).map fun t' => { t' with mem := t.mem } := by
  simp [Forest.tree, Forest.set, Function.update_of_ne hne, Function.comp_def]

omit [DecidableEq ι] in
theorem Forest.mem_of_tree (h : s.tree i = some t) : t.mem = s.mem := by
  obtain ⟨t', -, rfl⟩ := Option.map_eq_some_iff.1 h
  rfl

variable [LinearOrder O] {cmps : ι → K → V → Int} {rks : ι → K → O} {rvs : ι → V → O} {S : Multiset V}

/-- A tree that was initialised on its ground and contains these values. -/
structure Grown (confs : ι → BstConf K V) (nils : ι → Addr) (cmps : ι → K → V → Int) (rvs : ι → V → O) (i : ι)
    (t : Bst K V) (S : Multiset V) : Prop where
  nil : t.nil = nils i
  valueOffset : t.valueOffset.toNat = roundUp 32 (confs i).component.desc.align.toNat
  contains : Contains (confs i).component.slots (cmps i) (rvs i) t S

/-- What the multimap of a tree has to do with its place in a state. -/
def Forest.Shows (confs : ι → BstConf K V) (nils : ι → Addr) (cmps : ι → K → V → Int) (rvs : ι → V → O) (i : ι)
    (s : Forest ι K V) (S : Option (Multiset V)) : Prop :=
  match S with
  | none => s.tree i = none
  | some S => ∃ t, s.tree i = some t ∧ Grown confs nils cmps rvs i t S

omit [DecidableEq ι] in
/-- A tree whose nodes are as they were. -/
theorem Grown.elsewhere (h : Grown confs nils cmps rvs i t S) {m : NodeMemory V}
    (hsame : t.mem.Same (confs i).component.slots t.nil t.valueOffset m) :
    Grown confs nils cmps rvs i { t with mem := m } S where
  nil := h.nil
  valueOffset := h.valueOffset
  contains := by
    obtain ⟨T, chains, hinv, hstored⟩ := h.contains
    obtain ⟨hinv', hvalues⟩ := hinv.elsewhere hsame
    exact ⟨T, chains, hinv', hstored.trans hvalues.symm⟩

omit [DecidableEq ι] in
theorem Forest.Shows.grown {S : Option (Multiset V)} (h : s.Shows confs nils cmps rvs i S) (htree : s.tree i = some t) :
    ∃ S₀, S = some S₀ ∧ Grown confs nils cmps rvs i t S₀ := by
  cases S with
  | none => cases (show s.tree i = none from h).symm.trans htree
  | some S =>
      obtain ⟨t', htree', hgrown⟩ := h
      cases htree'.symm.trans htree
      exact ⟨S, rfl, hgrown⟩

omit [DecidableEq ι] in
theorem Forest.Shows.elsewhere {S : Option (Multiset V)} (h : s.Shows confs nils cmps rvs i S)
    (htree : s'.tree i = (s.tree i).map fun t => { t with mem := s'.mem })
    (hsame : ∀ t S₀, s.tree i = some t → Grown confs nils cmps rvs i t S₀ →
      s.mem.Same (confs i).component.slots t.nil t.valueOffset s'.mem) : s'.Shows confs nils cmps rvs i S := by
  cases S with
  | none =>
      have hnone : s.tree i = none := h
      change s'.tree i = none
      rw [htree, hnone]
      rfl
  | some S =>
      obtain ⟨t, hsome, hgrown⟩ := h
      refine ⟨{ t with mem := s'.mem }, ?_, hgrown.elsewhere ?_⟩
      · rw [htree, hsome]
        rfl
      · rw [s.mem_of_tree hsome]
        exact hsame t S hsome hgrown

/-! ### Runs -/

variable [Build]

/-- The calls on which every tree does what its multimap does. -/
def forestAllowed (confs : ι → BstConf K V) (cmps : ι → K → V → Int) (rks : ι → K → O) (rvs : ι → V → O) (i : ι)
    (t : Bst K V) (op : BstOp K V) : Prop :=
  op.Keyed (rks i) (rvs i) ∧ RefinementAllowed (confs i).component.desc.count (cmps i) (rks i) (rvs i) t op

omit [DecidableEq ι] in
/-- A call on a tree: it is one of the multimap, and it stays at the nodes. -/
theorem Grown.call {op : BstOp K V} {out : BstOut V} (h : Grown confs nils cmps rvs i t S)
    (ranks : Ranks (cmps i) (rks i) (rvs i)) (hthree : ∀ k v, cmps i k v = -1 ∨ cmps i k v = 0 ∨ cmps i k v = 1)
    (hallowed : forestAllowed confs cmps rks rvs i t op) (run : op.call.run t = .ok (out, t')) :
    Stays (confs i).component.slots t t' ∧ ∃ S', Grown confs nils cmps rvs i t' S' ∧
      MultimapStep (confs i).component.desc.count.toNat (rks i) (rvs i) S (op, out) S' := by
  have hslots : (confs i).component.slots.length = (confs i).component.desc.count.toNat := length_slots ..
  have hstays : Stays (confs i).component.slots t t' := by
    obtain ⟨T, chains, hinv, -⟩ := h.contains
    exact hinv.stays ranks hallowed.1 (hallowed.2.puts ranks hthree) run
  obtain ⟨S', hstep, hcontains⟩ := h.contains.step ranks hthree hslots hallowed.1 hallowed.2 run
  exact ⟨hstays, S', ⟨hstays.nil.trans h.nil, hstays.valueOffset ▸ h.valueOffset, hcontains⟩, hstep⟩

omit [DecidableEq ι] in
/-- A tree after `jfs_bst_init`. -/
theorem Grown.init (hg : Grounds confs nils) (hconf : (confs i).cmp = some (cmps i))
    (run : (jfsBstInit (nils i) (confs i) .ok).run t = .ok (.ok, t')) : Grown confs nils cmps rvs i t' 0 := by
  have hnode := hg.node i
  have hspec := (jfsBstInit_spec hnode.valid hconf hnode.nil_ne_null (aligned_of_dvd hnode.nil_aligned)).det run
  exact ⟨hspec.2.nil, hspec.2.valueOffset, leaf, _, hspec.2.inv hnode (rvs i), (storedValues_eq_zero_iff.2 rfl).symm⟩

omit [Build] in
/-- What happens to one tree leaves the others as they are. -/
theorem Forest.Shows.set {S : Option (Multiset V)} (hg : Grounds confs nils) (h : s.Shows confs nils cmps rvs j S)
    (hne : i ≠ j) {valueOffset : UInt64}
    (hoff : valueOffset.toNat = roundUp 32 (confs i).component.desc.align.toNat)
    (hconfined : s.mem.Confined (confs i).component.slots (nils i) valueOffset t.mem) :
    (s.set i t).Shows confs nils cmps rvs j S := by
  refine h.elsewhere (Forest.tree_set_of_ne hne.symm) fun t' S₀ _ hgrown => ?_
  rw [hgrown.nil]
  exact hg.same hne hoff hgrown.valueOffset hconfined

/-- In every run each tree is a run of its multimap. -/
theorem Forest.Shows.of_run (hg : Grounds confs nils) (hconf : ∀ i, (confs i).cmp = some (cmps i))
    (ranks : ∀ i, Ranks (cmps i) (rks i) (rvs i))
    (hthree : ∀ i k v, cmps i k v = -1 ∨ cmps i k v = 0 ∨ cmps i k v = 1) {log : List (Option (ι × TreeEvent K V))}
    (run : (forestSystem confs nils (forestAllowed confs cmps rks rvs)).Reaches log s) (i : ι) :
    ∃ S, (multimapEvents (confs i).component.desc.count.toNat (rks i) (rvs i)).Reaches (log.filterMap (eventOf i)) S ∧
      s.Shows confs nils cmps rvs i S := by
  refine run.components (P := fun i => multimapEvents (confs i).component.desc.count.toNat (rks i) (rvs i))
    (R := fun i s S => s.Shows confs nils cmps rvs i S) ?_ ?_ ?_ i
  · intro s hstart i
    refine ⟨none, rfl, ?_⟩
    change (s.trees i).map _ = none
    rw [show s.trees = fun _ => none from hstart]
    rfl
  · rintro s l s' - hstep i m hview S hshows
    cases hstep with
    | @init j t t' hmem hinit =>
        obtain ⟨rfl, hm⟩ := Option.ite_none_right_eq_some.1 hview
        cases hm
        exact ⟨some 0, .init, t', Forest.tree_set_self, .init hg (hconf j) hinit⟩
    | @call j t t' op out htree hallowed hcall =>
        obtain ⟨rfl, hm⟩ := Option.ite_none_right_eq_some.1 hview
        cases hm
        obtain ⟨S₀, rfl, hgrown⟩ := hshows.grown htree
        obtain ⟨-, S', hgrown', hstep⟩ := hgrown.call (ranks j) (hthree j) hallowed hcall
        exact ⟨some S', .call hstep, t', Forest.tree_set_self, hgrown'⟩
    | write hsame => cases hview
  · rintro s l s' hall hstep i hview S hshows
    cases hstep with
    | @init j t t' hmem hinit =>
        have hne : j ≠ i := fun heq => by simp [eventOf, heq] at hview
        have hgrown : Grown confs nils cmps rvs j t' 0 := .init hg (hconf j) hinit
        refine hshows.set hg hne hgrown.valueOffset ?_
        rw [← hmem]
        exact jfsBstInit_confined (hg.node j).valid hinit
    | @call j t t' op out htree hallowed hcall =>
        have hne : j ≠ i := fun heq => by simp [eventOf, heq] at hview
        obtain ⟨Sj, hj⟩ := hall j
        obtain ⟨S₀, rfl, hgrown⟩ := hj.grown htree
        obtain ⟨hstays, -⟩ := hgrown.call (ranks j) (hthree j) hallowed hcall
        refine hshows.set hg hne hgrown.valueOffset ?_
        have hconfined := hstays.mem
        rwa [hgrown.nil, s.mem_of_tree htree] at hconfined
    | write hsame =>
        refine hshows.elsewhere ?_ fun t S₀ htree _ => hsame i t htree
        simp [Forest.tree, Function.comp_def]

/-- In every run of any number of trees each one answers as a bounded multimap to which only its own calls happen, and
    every further call on it returns and changes no word and no value outside its nodes. -/
theorem trees_apart (hg : Grounds confs nils) (hconf : ∀ i, (confs i).cmp = some (cmps i))
    (ranks : ∀ i, Ranks (cmps i) (rks i) (rvs i))
    (hthree : ∀ i k v, cmps i k v = -1 ∨ cmps i k v = 0 ∨ cmps i k v = 1) {log : List (Option (ι × TreeEvent K V))}
    (run : (forestSystem confs nils (forestAllowed confs cmps rks rvs)).Reaches log s) (i : ι) :
    (∃ S, (multimapEvents (confs i).component.desc.count.toNat (rks i) (rvs i)).Reaches (log.filterMap (eventOf i)) S ∧
      s.Shows confs nils cmps rvs i S) ∧
    ∀ t, s.tree i = some t → ∀ op, forestAllowed confs cmps rks rvs i t op → Returns op.call t fun _ t' =>
      s.mem.Confined (confs i).component.slots (nils i) t.valueOffset t'.mem := by
  obtain ⟨S, hrun, hshows⟩ := Forest.Shows.of_run hg hconf ranks hthree run i
  refine ⟨⟨S, hrun, hshows⟩, fun t htree op hallowed => ?_⟩
  obtain ⟨S₀, rfl, hgrown⟩ := hshows.grown htree
  obtain ⟨T, chains, hinv, -⟩ := hgrown.contains
  have hslots : (confs i).component.slots.length = (confs i).component.desc.count.toNat := length_slots ..
  obtain ⟨out, t', hcall, -⟩ := hinv.call_returns (ranks i) (hthree i) hslots hallowed.1 hallowed.2
  obtain ⟨hstays, -⟩ := hgrown.call (ranks i) (hthree i) hallowed hcall
  have hconfined := hstays.mem
  rw [hgrown.nil, s.mem_of_tree htree] at hconfined
  exact ⟨out, t', hcall, hconfined⟩

end

/-- Two trees of integers, with two slots each. -/
def twoConfs : Bool → BstConf Int Int
  | false => ⟨⟨4096, ⟨40, 8, 2⟩⟩, some sampleCmp⟩
  | true => ⟨⟨4176, ⟨40, 8, 2⟩⟩, some sampleCmp⟩

def twoNils : Bool → Addr
  | false => 8
  | true => 40

theorem twoConfs_grounds : Grounds twoConfs twoNils where
  node i := by
    have hslots : ∀ i, (twoConfs i).component.slots = bif i then [4176, 4216] else [4096, 4136] := by
      intro i
      cases i <;> rfl
    refine ⟨?_, ?_, ?_, fun p hp => ?_, ?_, ?_, fun hin => ?_⟩
    · cases i <;> decide
    · cases i <;> decide
    · cases i <;> decide
    · rw [hslots] at hp
      cases i <;> simp at hp <;> rcases hp with rfl | rfl <;> decide
    · cases i <;> decide
    · cases i <;> decide
    · rw [hslots] at hin
      cases i <;> simp [twoNils] at hin
  space i := by cases i <;> exact ⟨by decide, by decide, by decide, by decide, by decide, by decide⟩
  components i j hne := by cases i <;> cases j <;> first | exact absurd rfl hne | decide
  sentinels i j hne := by cases i <;> cases j <;> first | exact absurd rfl hne | decide
  apart i j hne := by cases i <;> cases j <;> first | exact absurd rfl hne | decide

/-- The calls on these trees that their multimaps follow. -/
def twoAllowed [Build] : Bool → Bst Int Int → BstOp Int Int → Prop :=
  forestAllowed twoConfs (fun _ => sampleCmp) (fun _ => id) fun _ => id

/-- A value goes into each of two trees, and one comes out again. -/
theorem trees_apart_two : letI : Build := ⟨false⟩
    ∃ s, (forestSystem twoConfs twoNils twoAllowed).Reaches
        [some (false, .init), some (true, .init), some (false, .call (.puts 5 5) (.ok, none)),
          some (true, .call (.puts 7 7) (.ok, none)), some (false, .call .getSmallest (.ok, some 5))] s ∧
      ∃ S, (multimapEvents 2 (id : Int → Int) id).Reaches
          [.init, .call (.puts 5 5) (.ok, none), .call .getSmallest (.ok, some 5)] S ∧
        s.Shows twoConfs twoNils (fun _ => sampleCmp) (fun _ => id) false S := by
  let : Build := ⟨false⟩
  let t₁ := stateAfter (jfsBstInit 8 (twoConfs false) .ok) sampleRecord
  let t₂ := stateAfter (jfsBstInit 40 (twoConfs true) .ok) { sampleRecord with mem := t₁.mem }
  let t₃ := stateAfter (BstOp.puts (5 : Int) (5 : Int)).call { t₁ with mem := t₂.mem }
  let t₄ := stateAfter (BstOp.puts (7 : Int) (7 : Int)).call { t₂ with mem := t₃.mem }
  let t₅ := stateAfter (BstOp.getSmallest : BstOp Int Int).call { t₃ with mem := t₄.mem }
  let s₀ : Forest Bool Int Int := ⟨sampleRecord.mem, fun _ => none⟩
  let s₁ := s₀.set false t₁
  let s₂ := s₁.set true t₂
  let s₃ := s₂.set false t₃
  let s₄ := s₃.set true t₄
  have step₁ : ForestStep twoConfs twoNils twoAllowed s₀ (some (false, .init)) s₁ :=
    .init (t := sampleRecord) rfl (run_of_resultOf (by decide +kernel))
  have step₂ : ForestStep twoConfs twoNils twoAllowed s₁ (some (true, .init)) s₂ :=
    .init (t := { sampleRecord with mem := t₁.mem }) rfl (run_of_resultOf (by decide +kernel))
  have step₃ : ForestStep twoConfs twoNils twoAllowed s₂ (some (false, .call (.puts 5 5) (.ok, none))) s₃ :=
    .call (t := { t₁ with mem := t₂.mem }) rfl ⟨rfl, fun _ => ⟨fun _ => by decide +kernel, fun _ => by decide +kernel⟩⟩
      (run_of_resultOf (by decide +kernel))
  have step₄ : ForestStep twoConfs twoNils twoAllowed s₃ (some (true, .call (.puts 7 7) (.ok, none))) s₄ :=
    .call (t := { t₂ with mem := t₃.mem }) rfl ⟨rfl, fun _ => ⟨fun _ => by decide +kernel, fun _ => by decide +kernel⟩⟩
      (run_of_resultOf (by decide +kernel))
  have step₅ : ForestStep twoConfs twoNils twoAllowed s₄ (some (false, .call .getSmallest (.ok, some 5)))
      (s₄.set false t₅) :=
    .call (t := { t₃ with mem := t₄.mem }) rfl ⟨trivial, fun h => absurd h (by decide)⟩
      (run_of_resultOf (by decide +kernel))
  have run : (forestSystem twoConfs twoNils twoAllowed).Reaches _ (s₄.set false t₅) :=
    (((((System.Reaches.init rfl).step step₁).step step₂).step step₃).step step₄).step step₅
  refine ⟨_, run, ?_⟩
  have happart := trees_apart twoConfs_grounds (fun i => by cases i <;> rfl) (fun _ => sampleCmp_ranks)
    (fun _ => sampleCmp_three) run false
  exact happart.1

end Jcl
