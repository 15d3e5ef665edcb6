/-
Module: Jcl.Proofs.Bst.Draining
Layer: Proofs
Purpose: The tree as a queue with two ends. From every reachable state, values that are taken one after the other from
  its ends, in any order of the ends, come in the order of their keys: each one is an end of all that are taken after
  it or stay. Taking the smallest until nothing is left sorts what was put and not handed out.
Imports: Jcl.Proofs.Bst.Multimap
Trusted boundary: human-reviewed spec (drain, Precedes, FromEnds)
Main exports: drain, FromEnds, FromEnds.sorted, Contains.drains, drains_from_ends
-/
import Jcl.Proofs.Bst.Multimap

namespace Jcl

open RedBlack RedBlack.RBTree TaggedWord

section

variable {K V O : Type} [LinearOrder O] {t : Bst K V} {cmp : K → V → Int} {rk : K → O} {rv : V → O}
  {nilStorage : Addr} {conf : BstConf K V} {slots : List Addr} {S rest : Multiset V} {d : Dir} {ends : List Dir}
  {vs : List V} {log : List (BstOp K V × BstOut V)}

/-- The first rank is not farther from this end than the second. -/
def Precedes (d : Dir) (a b : O) : Prop :=
  match d with
  | .left => a ≤ b
  | .right => b ≤ a

/-- Values that are taken from these ends one after the other, with what stays: each value is an end of those after it
    and of those that stay. -/
def FromEnds (rv : V → O) (rest : Multiset V) : List Dir → List V → Prop
  | d :: ends, v :: vs => (∀ w ∈ (vs : Multiset V) + rest, Precedes d (rv v) (rv w)) ∧ FromEnds rv rest ends vs
  | _, [] => True
  | [], _ :: _ => False

/-- From one end all the time, the values are in order. -/
theorem FromEnds.sorted {n : Nat} (h : FromEnds rv rest (List.replicate n d) vs) :
    vs.Pairwise fun v w => Precedes d (rv v) (rv w) := by
  induction vs generalizing n with
  | nil => exact .nil
  | cons v vs ih =>
      cases n with
      | zero => exact h.elim
      | succ n =>
          obtain ⟨hfirst, hrest⟩ := h
          refine List.pairwise_cons.2 ⟨fun w hw => hfirst w ?_, ih hrest⟩
          exact Multiset.mem_add.2 (.inl (Multiset.mem_coe.2 hw))

/-- What the calls return: these values, and then nothing. -/
def handedOuts (n : Nat) (vs : List V) : List (BstOut V) :=
  vs.map (fun v => (.ok, some v)) ++ List.replicate (n - vs.length) (.empty, none)

theorem handedOuts_cons (n : Nat) (v : V) (vs : List V) :
    handedOuts (n + 1) (v :: vs) = (.ok, some v) :: handedOuts n vs := by
  rw [handedOuts, List.length_cons, Nat.add_sub_add_right]
  rfl

theorem handedOuts_nil (n : Nat) : handedOuts (n + 1) ([] : List V) = (.empty, none) :: handedOuts n [] := rfl

variable [Build]

/-- `jfs_bst_get_smallest` and `jfs_bst_get_largest`, one call for each end. -/
def drain : List Dir → BstM K V (List (BstOut V))
  | [] => return []
  | d :: ends => do
      let out ← jfsBstGet d .ok
      return out :: (← drain ends)

/-- One value is taken from an end, unless there is none. -/
theorem Contains.get (h : Contains slots cmp rv t S) (hasserts : Build.asserts = false) :
    Returns (jfsBstGet d .ok) t fun out t' => S = 0 ∧ out = (.empty, none) ∧ t' = t ∨
      ∃ v S', S = v ::ₘ S' ∧ out = (.ok, some v) ∧ (∀ w ∈ S', Precedes d (rv v) (rv w)) ∧
        Contains slots cmp rv t' S' := by
  obtain ⟨T, chains, hinv, rfl⟩ := h
  by_cases hnil : t.cached d = t.nil
  · have hnotnil : t.nil ∉ T.toList := fun hin => (hinv.holds.of_mem hin).2.1 rfl
    have hzero : storedValues t T chains = 0 :=
      storedValues_eq_zero_iff.2 ((hinv.cached.eq_nil_iff hnotnil).1 hnil)
    refine (get_empty hnil).mono fun out t' hout => .inl ⟨hzero, hout⟩
  · refine (returns_get_cached hnil).2 ((hinv.remove (hinv.cached.mem hnil) (by simp [hasserts])).mono ?_)
    intro v t' hpost
    have htaken : ∃ S', MultimapStep 0 (fun _ : K => rv v) rv (storedValues t T chains) (.get d, .ok, some v) S' ∧
        Contains slots cmp rv t' S' := hpost.multimapStep hinv hnil
    obtain ⟨S', hstep, hcontains⟩ := htaken
    refine .inr ⟨v, S', ?_⟩
    generalize storedValues t T chains = S at hstep
    cases d with
    | left =>
        cases hstep with
        | smallest hmin => exact ⟨rfl, rfl, hmin, hcontains⟩
    | right =>
        cases hstep with
        | largest hmax => exact ⟨rfl, rfl, hmax, hcontains⟩

/-- Values are taken from the ends, as long as there are any. -/
theorem Contains.drains (h : Contains slots cmp rv t S) (hasserts : Build.asserts = false) (ends : List Dir) :
    Returns (drain ends) t fun outs t' => ∃ (vs : List V) (rest : Multiset V), outs = handedOuts ends.length vs ∧
      S = vs + rest ∧ (vs.length < ends.length → rest = 0) ∧ FromEnds rv rest ends vs ∧
      Contains slots cmp rv t' rest := by
  induction ends generalizing t S with
  | nil => exact returns_pure.2 ⟨[], S, rfl, (zero_add S).symm, fun hlt => absurd hlt (Nat.lt_irrefl 0), trivial, h⟩
  | cons d ends ih =>
      refine returns_bind.2 ((h.get hasserts).mono fun out t₁ hout => returns_bind.2 ?_)
      rcases hout with ⟨rfl, rfl, rfl⟩ | ⟨v, S', rfl, rfl, hend, hcontains⟩
      · refine (ih h).mono fun outs t₂ houts => returns_pure.2 ?_
        obtain ⟨vs, rest, rfl, hsum, -, -, hcontains⟩ := houts
        -- Nothing was left before the other calls either.
        have hvs : vs = [] := (Multiset.coe_eq_zero vs).1 (Multiset.le_zero.1 (hsum ▸ Multiset.le_add_right _ _))
        have hrest : rest = 0 := Multiset.le_zero.1 (hsum ▸ Multiset.le_add_left _ _)
        subst hvs hrest
        exact ⟨[], 0, (handedOuts_nil ends.length).symm, rfl, fun _ => rfl, trivial, hcontains⟩
      · refine (ih hcontains).mono fun outs t₂ houts => returns_pure.2 ?_
        obtain ⟨vs, rest, rfl, rfl, hall, hfrom, hcontains'⟩ := houts
        exact ⟨v :: vs, rest, (handedOuts_cons ends.length v vs).symm, (Multiset.cons_add v vs rest).symm,
          fun hlt => hall (Nat.lt_of_succ_lt_succ hlt), ⟨hend, hfrom⟩, hcontains'⟩

/-- In every state that is reached the values that were put and not handed out come from the ends of their order. -/
theorem drains_from_ends (hc : NodeComponent conf.component nilStorage) (hconf : conf.cmp = some cmp)
    (ranks : Ranks cmp rk rv) (hthree : ∀ k v, cmp k v = -1 ∨ cmp k v = 0 ∨ cmp k v = 1)
    (hasserts : Build.asserts = false)
    (run : (bstSystem nilStorage conf fun t op => op.Keyed rk rv ∧
      RefinementAllowed conf.component.desc.count cmp rk rv t op).Reaches log t) (ends : List Dir) :
    Returns (drain ends) t fun outs _ => ∃ (vs : List V) (rest : Multiset V), outs = handedOuts ends.length vs ∧
      (log.map added).sum = (log.map handedOut).sum + (vs + rest) ∧ (vs.length < ends.length → rest = 0) ∧
      FromEnds rv rest ends vs := by
  obtain ⟨S, hrun, hcontains⟩ := Contains.of_run hc hconf ranks hthree run
  refine (hcontains.drains hasserts ends).mono fun outs t' houts => ?_
  obtain ⟨vs, rest, hout, rfl, hall, hfrom, -⟩ := houts
  exact ⟨vs, rest, hout, multimap_conserved hrun, hall, hfrom⟩

end

/-- Three values are put and sorted. -/
theorem drains_from_ends_three : letI : Build := ⟨false⟩
    ∃ t, (bstSystem 8 (sampleConf 3) fun t op => op.Keyed id id ∧ RefinementAllowed 3 sampleCmp id id t op).Reaches
        [(.puts 6 6, .ok, none), (.puts 5 5, .ok, none), (.puts 7 7, .ok, none)] t ∧
      Returns (drain [.left, .left, .left]) t fun outs _ => ∃ vs : List Int, outs = handedOuts 3 vs ∧
        vs.Perm [6, 5, 7] ∧ vs.Pairwise fun v w => v ≤ w := by
  let : Build := ⟨false⟩
  have run₀ : (bstSystem 8 (sampleConf 3) fun t op => op.Keyed id id ∧
      RefinementAllowed 3 sampleCmp id id t op).Reaches []
      (stateAfter (jfsBstInit 8 (sampleConf 3) .ok) sampleRecord) := reaches_init (by decide +kernel)
  have run₁ := reaches_call run₀ (.puts 6 6) (.ok, none) ⟨rfl, fun _ => ⟨fun _ => by decide +kernel,
    fun _ => by decide +kernel⟩⟩ (by decide +kernel)
  have run₂ := reaches_call run₁ (.puts 5 5) (.ok, none) ⟨rfl, fun _ => ⟨fun _ => by decide +kernel,
    fun _ => by decide +kernel⟩⟩ (by decide +kernel)
  have run₃ := reaches_call run₂ (.puts 7 7) (.ok, none) ⟨rfl, fun _ => ⟨fun _ => by decide +kernel,
    fun _ => by decide +kernel⟩⟩ (by decide +kernel)
  refine ⟨_, run₃, ?_⟩
  have hdrains := drains_from_ends (sampleComponent 3 (by simp)) rfl sampleCmp_ranks sampleCmp_three rfl run₃
    [.left, .left, .left]
  refine hdrains.mono fun outs t' houts => ?_
  obtain ⟨vs, rest, rfl, hsum, hall, hfrom⟩ := houts
  refine ⟨vs, rfl, ?_, FromEnds.sorted (n := 3) hfrom⟩
  have hstored : (([6, 5, 7] : List Int) : Multiset Int) = vs + rest := by
    have hputs : ({6} + ({5} + {7}) : Multiset Int) = vs + rest := by simpa [added, handedOut, add_assoc] using hsum
    exact hputs
  have hcard : 3 = vs.length + rest.card := by simpa using congrArg Multiset.card hstored
  have hrest : rest = 0 := by
    by_contra hne
    have hpos := Multiset.card_pos.2 hne
    exact hne (hall (show vs.length < 3 by omega))
  rw [hrest, add_zero] at hstored
  exact (Multiset.coe_eq_coe.1 hstored).symm

end Jcl
