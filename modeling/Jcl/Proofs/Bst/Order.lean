/-
Module: Jcl.Proofs.Bst.Order
Layer: Proofs
Purpose: Trees whose values increase from node to node, for a comparator whose signs come from an order:
  `bst_find` ends at the node with the key or in the gap where the key belongs. The comparator may answer
  any negative or positive number; `GapAnswers` says where the code relies on -1 and 1.
Imports: Jcl.Proofs.Bst.Cache
Trusted boundary: none (fully proved)
Main exports: Ranks, Increasing, Searchable, bstFind_found, bstFind_absent, GapAnswers, gapAnswers_iff,
  Holds.unique
-/
import Jcl.Proofs.Bst.Cache

namespace Jcl

open RedBlack RedBlack.RBTree TaggedWord

/-- The comparator compares ranks: `rk` of the key with `rv` of the value. -/
structure Ranks {K V O : Type} [LinearOrder O] (cmp : K → V → Int) (rk : K → O) (rv : V → O) : Prop where
  neg : ∀ k v, cmp k v < 0 ↔ rk k < rv v
  zero : ∀ k v, cmp k v = 0 ↔ rk k = rv v

theorem Ranks.pos {K V O : Type} [LinearOrder O] {cmp : K → V → Int} {rk : K → O} {rv : V → O}
    (h : Ranks cmp rk rv) (k : K) (v : V) : 0 < cmp k v ↔ rv v < rk k := by
  have hneg := h.neg k v
  have hzero := h.zero k v
  rcases lt_trichotomy (rk k) (rv v) with hlt | heq | hgt
  · have := hneg.2 hlt
    exact ⟨fun _ => by omega, fun hlt' => absurd hlt' hlt.asymm⟩
  · have := hzero.2 heq
    exact ⟨fun _ => by omega, fun hlt => absurd hlt (heq ▸ lt_irrefl _)⟩
  · have hnot : ¬ cmp k v < 0 := fun h => hgt.asymm (hneg.1 h)
    have hne : ¬ cmp k v = 0 := fun h => hgt.ne' (hzero.1 h)
    exact ⟨fun _ => hgt, fun _ => by omega⟩

section

variable {K V O : Type} [LinearOrder O] {t t' : Bst K V} {cmp : K → V → Int} {rk : K → O} {rv : V → O}
  {key : K} {s T T' : RBTree Addr} {ctx : List (Frame Addr)} {p q x : Addr} {location : BstLocation}

/-- The rank of the value a node holds. -/
def Bst.rank (t : Bst K V) (rv : V → O) (node : Addr) : O := rv (t.valueAt node)

/-- The in-order sequence of values is strictly increasing. -/
def Increasing (t : Bst K V) (rv : V → O) (T : RBTree Addr) : Prop :=
  T.toList.Pairwise fun p q => t.rank rv p < t.rank rv q

/-- The memory holds a red-black search tree, with its two ends cached. -/
structure Searchable (t : Bst K V) (cmp : K → V → Int) (rv : V → O) (T : RBTree Addr) : Prop
    extends TreeOk t cmp T where
  increasing : Increasing t rv T
  cached : CacheExact t T

theorem Increasing.separates (h : Increasing t rv T) (ranks : Ranks cmp rk rv) :
    Separates (probe t cmp key) T.toList := by
  refine h.imp fun {p q} hlt hp => ?_
  have hle : rk key ≤ t.rank rv p := by
    by_contra hgt
    have := (ranks.pos key (t.valueAt p)).2 (not_le.1 hgt)
    rw [probe] at hp
    omega
  exact (ranks.neg _ _).2 (lt_of_le_of_lt hle hlt)

/-- The first node has the least rank. -/
theorem Increasing.first_le (h : Increasing t rv T) (hedge : edge .left T = some p) (hq : q ∈ T.toList) :
    t.rank rv p ≤ t.rank rv q := by
  rw [edge_left] at hedge
  cases hl : T.toList with
  | nil => simp [hl] at hedge
  | cons y l =>
      rw [Increasing, hl] at h
      rw [hl] at hq hedge
      obtain rfl : y = p := by simpa using hedge
      rcases List.mem_cons.1 hq with rfl | hq
      · exact le_refl _
      · exact (List.rel_of_pairwise_cons h hq).le

/-- The last node has the greatest rank. -/
theorem Increasing.le_last (h : Increasing t rv T) (hedge : edge .right T = some p) (hq : q ∈ T.toList) :
    t.rank rv q ≤ t.rank rv p := by
  rw [edge_right] at hedge
  obtain ⟨l, hl⟩ : ∃ l, T.toList = l ++ [p] := ⟨_, (List.dropLast_append_getLast? p hedge).symm⟩
  rw [Increasing, hl] at h
  rw [hl, List.mem_append, List.mem_singleton] at hq
  rcases hq with hq | rfl
  · exact ((List.pairwise_append.1 h).2.2 q hq p (by simp)).le
  · exact le_refl _

/-- The fields determine the tree. -/
theorem Linked.unique {par par' : Addr} (h : Linked t T par) (h' : Linked t T' par')
    (hptr : ptr t.nil T = ptr t.nil T') : T = T' := by
  induction T generalizing T' par par' with
  | leaf =>
      cases T' with
      | leaf => rfl
      | node c l y r => exact absurd hptr.symm h'.1.ne_nil
  | node c l y r ihl ihr =>
      cases T' with
      | leaf => exact absurd hptr h.1.ne_nil
      | node c' l' y' r' =>
          obtain ⟨hy, hl, hr⟩ := h
          obtain ⟨hy', hl', hr'⟩ := h'
          rw [ptr_node, ptr_node] at hptr
          subst hptr
          have hcolor : c = c' := by
            have hword := hy.color.symm.trans hy'.color
            cases c <;> cases c' <;> first | rfl | (revert hword; decide)
          rw [hcolor, ihl hl hl' (hy.near.symm.trans hy'.near), ihr hr hr' (hy.far.symm.trans hy'.far)]

theorem Holds.unique (h : Holds t T) (h' : Holds t T') : T = T' :=
  h.linked.unique h'.linked (h.root.symm.trans h'.root)

/-- The frames around the gap where the search for a key ends. -/
def gapCtx (t : Bst K V) (cmp : K → V → Int) (key : K) (T : RBTree Addr) : List (Frame Addr) :=
  (seek (probe t cmp key) [] T).1

/-- No node of the tree holds a value of the key's rank. -/
def Absent (t : Bst K V) (rk : K → O) (rv : V → O) (key : K) (T : RBTree Addr) : Prop :=
  ∀ p ∈ T.toList, t.rank rv p ≠ rk key

theorem Absent.gap (h : Absent t rk rv key T) (ranks : Ranks cmp rk rv) :
    (seek (probe t cmp key) [] T).2 = leaf :=
  seek_gap fun p hp hzero => h p hp ((ranks.zero _ _).1 hzero).symm

theorem Absent.plug_gapCtx (h : Absent t rk rv key T) (ranks : Ranks cmp rk rv) :
    plug (gapCtx t cmp key T) leaf = T := by
  have hplug := @plug_seek _ (probe t cmp key) [] T
  rwa [h.gap ranks] at hplug

/-- The gap is between the smaller and the greater nodes. -/
theorem Absent.sides (h : Absent t rk rv key T) (ranks : Ranks cmp rk rv) (hinc : Increasing t rv T) :
    (∀ q ∈ before (gapCtx t cmp key T), t.rank rv q < rk key) ∧
      ∀ q ∈ after (gapCtx t cmp key T), rk key < t.rank rv q := by
  have hplug := h.plug_gapCtx ranks
  have hsides := separates_sides (t := leaf) (seek_directed (g := probe t cmp key) (t := T) directed_nil) (by
    rw [← gapCtx, hplug]
    exact hinc.separates ranks)
  exact ⟨fun q hq => (ranks.pos _ _).1 (hsides.1 q hq), fun q hq => (ranks.neg _ _).1 (hsides.2 q hq)⟩

/-! ### Where the code compares with -1 and 1 -/

/-- The comparator answers -1 about the least greater node, if that node has no left child, and 1 about
    the largest node, if that one is smaller than the key. -/
structure GapAnswers (t : Bst K V) (cmp : K → V → Int) (rk : K → O) (rv : V → O) (key : K) : Prop where
  left : ∀ p, t.IsLinked p → t.child .left p = t.nil → rk key < t.rank rv p →
    (∀ q, t.IsLinked q → rk key < t.rank rv q → t.rank rv p ≤ t.rank rv q) → cmp key (t.valueAt p) = -1
  right : t.cache.largest ≠ t.nil → t.rank rv t.cache.largest < rk key →
    cmp key (t.valueAt t.cache.largest) = 1

/-- A comparator that only answers -1, 0 or 1 does so in particular. -/
theorem GapAnswers.of_three (ranks : Ranks cmp rk rv)
    (hcmp : ∀ k v, cmp k v = -1 ∨ cmp k v = 0 ∨ cmp k v = 1) (t : Bst K V) (key : K) :
    GapAnswers t cmp rk rv key := by
  constructor
  · intro p _ _ hlt _
    have := (ranks.neg key (t.valueAt p)).2 hlt
    have := hcmp key (t.valueAt p)
    omega
  · intro _ hlt
    have := (ranks.pos key (t.valueAt t.cache.largest)).2 hlt
    have := hcmp key (t.valueAt t.cache.largest)
    omega

/-- The same condition seen from the frames around the gap. -/
def SideAnswers (g : Addr → Int) : List (Frame Addr) → Prop
  | [] => True
  | f :: ctx => (f.dir = .left → g f.key = -1) ∧ ((∀ e ∈ f :: ctx, e.dir = .right) → g f.key = 1)

theorem Searchable.sideAnswers (h : Searchable t cmp rv T) (ranks : Ranks cmp rk rv)
    (habsent : Absent t rk rv key T) (hanswers : GapAnswers t cmp rk rv key) :
    SideAnswers (probe t cmp key) (gapCtx t cmp key T) := by
  have hplug := habsent.plug_gapCtx ranks
  have hsides := habsent.sides ranks h.increasing
  cases hctx : gapCtx t cmp key T with
  | nil => trivial
  | cons f ctx =>
      rw [hctx] at hplug hsides
      have hf : f.key ∈ T.toList := by
        rw [← hplug, mem_plug_leaf]
        simp
      refine ⟨fun hleft => ?_, fun hright => ?_⟩
      · -- The gap is left of the least greater node.
        have hlist : T.toList = before (f :: ctx) ++ after (f :: ctx) := by
          rw [← hplug, toList_plug, toList_leaf, List.append_nil]
        have hafter : after (f :: ctx) = f.key :: (f.sib.toList ++ after ctx) := by
          simp [after, hleft]
        have hholds := h.holds
        rw [← hplug] at hholds
        obtain ⟨-, hfoc, -⟩ := holds_plug.1 hholds
        have hchild := hfoc.1.near
        rw [hleft, ptr_leaf] at hchild
        refine hanswers.left f.key (h.holds.isLinked_iff.2 hf) hchild
          (hsides.2 f.key (by simp [hafter])) fun q hq hlt => ?_
        have hin := h.holds.isLinked_iff.1 hq
        rw [hlist, List.mem_append] at hin
        rcases hin with hin | hin
        · exact absurd (hsides.1 q hin) hlt.asymm
        · have hinc := h.increasing
          rw [Increasing, hlist, hafter] at hinc
          rw [hafter] at hin
          rcases List.mem_cons.1 hin with rfl | hin
          · exact le_refl _
          · exact (List.rel_of_pairwise_cons (List.pairwise_append.1 hinc).2.1 hin).le
      · -- The gap is right of all nodes.
        have hlast : t.cache.largest = f.key := by
          have := h.cached .right
          rwa [← hplug, edge_plug_leaf hright, Option.getD_some] at this
        have hone := hanswers.right
        rw [hlast] at hone
        exact hone (h.holds.of_mem hf).2.1
          (hsides.1 f.key (mem_before_of_right (by simp) (hright f (by simp))))

theorem Searchable.gapAnswers (h : Searchable t cmp rv T) (ranks : Ranks cmp rk rv)
    (habsent : Absent t rk rv key T)
    (hanswers : SideAnswers (probe t cmp key) (gapCtx t cmp key T)) : GapAnswers t cmp rk rv key := by
  constructor
  · intro p hp hchild hlt hleast
    obtain ⟨ctx, c, l, r, rfl⟩ := exists_plug (h.holds.isLinked_iff.1 hp)
    obtain ⟨-, -, hfocus, -⟩ := holds_plug.1 h.holds
    obtain rfl : l = leaf := (ptr_eq_nil_iff hfocus.2.1).1 (hfocus.1.near.symm.trans hchild)
    have hinc := h.increasing
    have hmem : ∀ q ∈ (plug ctx (node c leaf p r)).toList, t.IsLinked q := fun q hq =>
      h.holds.isLinked_iff.2 hq
    rw [Increasing, toList_plug, toList_node, toList_leaf, List.nil_append] at hinc
    rw [Absent, toList_plug] at habsent
    rw [toList_plug] at hmem
    obtain ⟨hfront, hback, hcross⟩ := List.pairwise_append.1 hinc
    -- The search goes to the left of `p`.
    have hdirected : Directed (probe t cmp key) (⟨.left, c, p, r⟩ :: ctx) := by
      intro f hf
      rcases List.mem_cons.1 hf with rfl | hf
      · exact ⟨fun _ => (ranks.neg _ _).2 hlt, fun hd => by cases hd⟩
      · refine ⟨fun hd => (ranks.neg _ _).2 ?_, fun hd => (ranks.pos _ _).2 ?_⟩
        · exact hlt.trans (hcross p (by simp) f.key (mem_after_of_left hf hd))
        · have hbefore := mem_before_of_right hf hd
          have hlt' := (List.pairwise_append.1 hfront).2.2 f.key hbefore p (by simp)
          have hin : f.key ∈ before ctx ++ (node c leaf p r).toList ++ after ctx := by simp [hbefore]
          have hnot : ¬ rk key < t.rank rv f.key := fun hgt =>
            absurd (hleast f.key (hmem f.key hin) hgt) hlt'.not_ge
          exact lt_of_le_of_ne (not_lt.1 hnot) (habsent f.key hin)
    have hgap : gapCtx t cmp key (plug ctx (node c leaf p r)) = ⟨.left, c, p, r⟩ :: ctx := by
      have hseek := seek_plug (t := leaf) hdirected
      rw [gapCtx]
      exact congrArg Prod.fst hseek
    rw [hgap] at hanswers
    exact hanswers.1 rfl
  · intro hne hlt
    have hplug := habsent.plug_gapCtx ranks
    have hsides := habsent.sides ranks h.increasing
    have hmem : t.cache.largest ∈ T.toList := h.cached.mem (d := .right) hne
    have hedge := h.cached.edge_eq (d := .right) hmem rfl
    cases hctx : gapCtx t cmp key T with
    | nil =>
        rw [hctx] at hplug
        rw [← hplug] at hmem
        simp at hmem
    | cons f ctx =>
        rw [hctx] at hplug hsides hanswers
        have hdirs : ∀ e ∈ f :: ctx, e.dir = .right := by
          intro e he
          cases hd : e.dir with
          | right => rfl
          | left =>
              have hafter := mem_after_of_left he hd
              have hin : e.key ∈ T.toList := by
                rw [← hplug, toList_plug]
                exact List.mem_append_right _ hafter
              have hle := h.increasing.le_last hedge hin
              exact absurd ((hsides.2 e.key hafter).trans_le hle) hlt.asymm
        have hkey := edge_plug_leaf hdirs
        rw [hplug, hedge] at hkey
        have hone := hanswers.2 hdirs
        rw [← Option.some.inj hkey] at hone
        exact hone

theorem gapAnswers_iff (h : Searchable t cmp rv T) (ranks : Ranks cmp rk rv)
    (habsent : Absent t rk rv key T) :
    GapAnswers t cmp rk rv key ↔ SideAnswers (probe t cmp key) (gapCtx t cmp key T) := by
  exact ⟨h.sideAnswers ranks habsent, h.gapAnswers ranks habsent⟩

variable [Build]

/-- A stored key is found. -/
theorem bstFind_found (h : TreeOk t cmp T) (hinc : Increasing t rv T) (ranks : Ranks cmp rk rv)
    (hp : p ∈ T.toList) (hkey : t.rank rv p = rk key) :
    Returns (bstFind key) t fun location t' => t' = t ∧ location.node = p := by
  have hzero : probe t cmp key p = 0 := (ranks.zero _ _).2 hkey.symm
  obtain ⟨c, l, r, hseek⟩ := seek_found (hinc.separates ranks) hp hzero
  refine (bstFind_spec h.cmp h.offset h.holds).mono fun location t' ht' => ⟨ht'.1, ?_⟩
  rw [ht'.2.node, hseek, ptr_node]

/-- Another key is looked for in vain: the search ends in a gap. -/
theorem bstFind_absent (h : TreeOk t cmp T) (ranks : Ranks cmp rk rv) (habsent : Absent t rk rv key T) :
    Returns (bstFind key) t fun location t' => t' = t ∧
      FoundAt t (probe t cmp key) (gapCtx t cmp key T) leaf location := by
  rw [gapCtx, ← habsent.gap ranks]
  exact bstFind_spec h.cmp h.offset h.holds

end

end Jcl
