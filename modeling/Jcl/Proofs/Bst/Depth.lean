/-
Module: Jcl.Proofs.Bst.Depth
Layer: Proofs
Purpose: Insertions and deletions in any order keep the tree red-black, so that a tree of n nodes is at most
  2 * log2(n + 1) nodes deep and `bst_find` ends within that many rounds.
Imports: Jcl.Proofs.Bst.Init
Trusted boundary: none (fully proved)
Main exports: Bst.IsLinked, insertFound_spec, TreeOk, TreeRun, TreeRun.treeOk, depth_logarithmic
-/
import Jcl.Proofs.Bst.Init

namespace Jcl

open RedBlack RedBlack.RBTree TaggedWord

section

variable {K V : Type} {t t' : Bst K V} {cmp : K → V → Int} {key : K} {s T : RBTree Addr}
  {ctx : List (Frame Addr)} {p x : Addr} {location : BstLocation}

/-- The nodes reached from `tree->root` through the child fields. -/
inductive Bst.IsLinked (t : Bst K V) : Addr → Prop where
  | root (h : t.root ≠ t.nil) : IsLinked t t.root
  | child {p : Addr} (d : Dir) (hp : IsLinked t p) (h : t.child d p ≠ t.nil) : IsLinked t (t.child d p)

theorem Linked.isLinked {par : Addr} (h : Linked t T par) (hroot : T ≠ leaf → t.IsLinked (ptr t.nil T))
    (hx : x ∈ T.toList) : t.IsLinked x := by
  induction T generalizing par with
  | leaf => simp at hx
  | node c l y r ihl ihr =>
      obtain ⟨hy, hl, hr⟩ := h
      have hyl : t.IsLinked y := hroot (by simp)
      rcases List.mem_append.1 hx with hx | hx
      · refine ihl hl (fun hne => ?_) hx
        rw [← hy.near]
        exact Bst.IsLinked.child .left hyl (by rw [hy.near]; exact fun hnil => hne ((ptr_eq_nil_iff hl).1 hnil))
      · rcases List.mem_cons.1 hx with rfl | hx
        · exact hyl
        · have hfar : t.child .right y = ptr t.nil r := hy.far
          refine ihr hr (fun hne => ?_) hx
          rw [← hfar]
          exact Bst.IsLinked.child .right hyl (by rw [hfar]; exact fun hnil => hne ((ptr_eq_nil_iff hr).1 hnil))

theorem Linked.child_mem {par : Addr} (h : Linked t T par) (hx : x ∈ T.toList) (d : Dir)
    (hne : t.child d x ≠ t.nil) : t.child d x ∈ T.toList := by
  induction T generalizing par with
  | leaf => simp at hx
  | node c l y r ihl ihr =>
      obtain ⟨hy, hl, hr⟩ := h
      have hfar : t.child .right y = ptr t.nil r := hy.far
      rw [toList_node, List.mem_append, List.mem_cons] at hx ⊢
      rcases hx with hx | rfl | hx
      · exact Or.inl (ihl hl hx)
      · cases d with
        | left =>
            rw [hy.near] at hne ⊢
            exact Or.inl (ptr_mem hne)
        | right =>
            rw [hfar] at hne ⊢
            exact Or.inr (Or.inr (ptr_mem hne))
      · exact Or.inr (Or.inr (ihr hr hx))

/-- A list of nodes that holds the root and the children of its members holds every linked node. The checks are
    Boolean: the instances for `∀ p ∈ l` may choose to go through all addresses. -/
theorem Bst.IsLinked.mem_of_closed {l : List Addr} (h : t.IsLinked x)
    (hroot : (t.root == t.nil || l.contains t.root) = true)
    (hchild : (l.all fun p => [Dir.left, Dir.right].all fun d =>
      t.child d p == t.nil || l.contains (t.child d p)) = true) : x ∈ l := by
  simp only [Bool.or_eq_true, beq_iff_eq, List.contains_iff_mem, List.all_eq_true] at hroot hchild
  induction h with
  | root hne => exact hroot.resolve_left hne
  | child d hp hne ih => exact (hchild _ ih d (by cases d <;> simp)).resolve_left hne

/-- The labels of the tree in memory are the linked nodes. -/
theorem Holds.isLinked_iff (h : Holds t T) : t.IsLinked x ↔ x ∈ T.toList := by
  constructor
  · intro hx
    induction hx with
    | root hne =>
        rw [h.root] at hne ⊢
        exact ptr_mem hne
    | child d hp hne ih => exact h.linked.child_mem ih d hne
  · intro hx
    refine h.linked.isLinked (fun hne => ?_) hx
    rw [← h.root]
    exact Bst.IsLinked.root (h.root_ne_nil hx)

/-- A location where the search ended in a gap is one `bst_insert` can use, if the comparator said -1
    there whenever the gap is to the left. -/
theorem FoundAt.locationAt {g : Addr → Int} (h : FoundAt t g ctx leaf location) (hdir : Directed g ctx)
    (hexact : ∀ f rest, ctx = f :: rest → f.dir = .left → g f.key = -1) :
    LocationAt t.nil ctx location := by
  refine ⟨h.node, h.parent, ?_⟩
  intro f rest hctx
  obtain ⟨hleft, hright⟩ := hdir f (by simp [hctx])
  rw [h.parentCmp, hctx, ctxCmp]
  cases hd : f.dir with
  | left =>
      have hg := hexact f rest hctx hd
      simp [hg]
  | right =>
      have hg := hright hd
      refine ⟨by omega, ?_⟩
      simp only [reduceCtorEq, iff_false]
      omega

/-- The memory holds a red-black tree and the comparator is set. -/
structure TreeOk (t : Bst K V) (cmp : K → V → Int) (T : RBTree Addr) : Prop where
  holds : Holds t T
  redBlack : IsRedBlack T
  cmp : t.cmp = some cmp
  offset : 0 < t.valueOffset

/-- Changes to values leave the tree alone. -/
theorem TreeOk.withValues (h : TreeOk t cmp T) (value : Addr → V) :
    TreeOk { t with mem := { t.mem with value := value } } cmp T where
  holds := h.holds.congr ⟨rfl, fun _ _ => ⟨rfl, rfl, rfl⟩⟩ rfl
  redBlack := h.redBlack
  cmp := h.cmp
  offset := h.offset

variable [Build]

/-- `bst_insert` at the place where the search ended. -/
theorem insertFound_spec {g : Addr → Int} (h : Holds t T) (hrb : IsRedBlack T)
    (hgap : (seek g [] T).2 = leaf) (hx : x ≠ null ∧ x ≠ t.nil ∧ Aligned x) (hfresh : x ∉ T.toList)
    (hfound : FoundAt t g (seek g [] T).1 (seek g [] T).2 location)
    (hexact : ∀ f rest, (seek g [] T).1 = f :: rest → f.dir = .left → g f.key = -1) :
    Returns (bstInsert x location) t fun _ t' => ∃ T₀,
      InsFix (seek g [] T).1 (node .red leaf x leaf) T₀ ∧ Holds t' T₀.blacken ∧ IsRedBlack T₀.blacken ∧
      Frames t t' (x :: T.toList) := by
  have hplug : plug (seek g [] T).1 leaf = T := by
    rw [← hgap]
    exact plug_seek
  rw [hgap] at hfound
  rw [← hplug] at h hrb hfresh
  rw [mem_plug, not_or] at hfresh
  refine (bstInsert_spec h hx hfresh.2 hrb.focus.2.2.2
    (hfound.locationAt (seek_directed directed_nil) hexact)).mono fun _ t' ht' => ?_
  obtain ⟨T₀, hfix, hholds, hframe⟩ := ht'
  refine ⟨T₀, hfix, hholds, hfix.isRedBlack hrb, hframe.subset fun q hq => ?_⟩
  rw [← hplug, List.mem_cons, mem_plug]
  rcases List.mem_cons.1 hq with rfl | hq
  · exact Or.inl rfl
  · exact Or.inr (Or.inr hq)

/-! ### Runs of insertions and deletions -/

/-- The trees reached from an initialised one: a new value is packed into an unlinked node and inserted
    where `bst_find` did not find its key, and linked nodes are deleted. -/
inductive TreeRun (nilStorage : Addr) (conf : BstConf K V) : Bst K V → Prop where
  | init {t₀ t : Bst K V} (run : (jfsBstInit nilStorage conf .ok).run t₀ = .ok (.ok, t)) :
      TreeRun nilStorage conf t
  | insert {t t₁ t₂ t' : Bst K V} {node valuePtr : Addr} {value : V} {key : K} {location : BstLocation}
      (reached : TreeRun nilStorage conf t) (fresh : node ≠ null ∧ node ≠ t.nil ∧ Aligned node)
      (unlinked : ¬ t.IsLinked node) (pack : (bstPackNode node value).run t = .ok (valuePtr, t₁))
      (find : (bstFind key).run t₁ = .ok (location, t₂)) (absent : location.node = t₂.nil)
      (run : (bstInsert node location).run t₂ = .ok ((), t')) : TreeRun nilStorage conf t'
  | delete {t t' : Bst K V} {node : Addr} (reached : TreeRun nilStorage conf t) (linked : t.IsLinked node)
      (run : (bstDelete node).run t = .ok ((), t')) : TreeRun nilStorage conf t'

theorem TreeOk.insert (h : TreeOk t cmp T) (hcmp : ∀ k v, cmp k v = -1 ∨ cmp k v = 0 ∨ cmp k v = 1)
    (hx : x ≠ null ∧ x ≠ t.nil ∧ Aligned x) (hfresh : x ∉ T.toList)
    (hfound : FoundAt t (probe t cmp key) (seek (probe t cmp key) [] T).1 (seek (probe t cmp key) [] T).2
      location) (habsent : location.node = t.nil) :
    Returns (bstInsert x location) t fun _ t' => ∃ T', TreeOk t' cmp T' := by
  have hplug := @plug_seek _ (probe t cmp key) [] T
  have hholds := h.holds
  rw [← plug_nil T, ← hplug, holds_plug] at hholds
  have hgap : (seek (probe t cmp key) [] T).2 = leaf := by
    rw [hfound.node] at habsent
    exact (ptr_eq_nil_iff hholds.2.2.1).1 habsent
  refine (insertFound_spec h.holds h.redBlack hgap hx hfresh hfound ?_).mono fun _ t' ht' => ?_
  · intro f rest hctx hdir
    have hneg := (seek_directed directed_nil f (by rw [hctx]; simp)).1 hdir
    rcases hcmp key (t.valueAt f.key) with hc | hc | hc
    · exact hc
    · rw [probe, hc] at hneg
      exact absurd hneg (by decide)
    · rw [probe, hc] at hneg
      exact absurd hneg (by decide)
  · obtain ⟨T₀, -, hholds', hrb, hframe⟩ := ht'
    refine ⟨_, hholds', hrb, hframe.cmp.trans h.cmp, ?_⟩
    rw [hframe.valueOffset]
    exact h.offset

theorem TreeOk.delete (h : TreeOk t cmp T) (hx : x ∈ T.toList) :
    Returns (bstDelete x) t fun _ t' => ∃ T', TreeOk t' cmp T' := by
  obtain ⟨ctx, c, l, r, rfl⟩ := exists_plug hx
  refine (bstDelete_spec h.holds h.redBlack).mono fun _ t' ht' => ?_
  obtain ⟨T', hholds, hrb, -, hframe, -⟩ := ht'
  refine ⟨T', hholds, hrb, hframe.cmp.trans h.cmp, ?_⟩
  rw [hframe.valueOffset]
  exact h.offset

theorem TreeRun.treeOk {nilStorage : Addr} {conf : BstConf K V}
    (hvalid : jfsMlgValidComponent conf.component = true) (hconf : conf.cmp = some cmp)
    (hnull : nilStorage ≠ null) (haligned : Aligned nilStorage)
    (hcmp : ∀ k v, cmp k v = -1 ∨ cmp k v = 0 ∨ cmp k v = 1) (run : TreeRun nilStorage conf t) :
    ∃ T, TreeOk t cmp T := by
  induction run with
  | init run =>
      have hinit := ((jfsBstInit_spec hvalid hconf hnull haligned).det run).2
      have halign := ((jfsMlgValidComponent_iff conf.component).1 hvalid).1.align
      exact ⟨leaf, hinit.holds, ⟨rfl, trivial, 0, rfl⟩, hinit.cmp, hinit.offset_pos halign⟩
  | @insert t t₁ t₂ t' node valuePtr value key location reached fresh unlinked pack find absent run ih =>
      obtain ⟨T, hT⟩ := ih
      have hpack := ((returns_bstPackNode (p := node) (v := value) (Q := fun _ s => s = { t with mem :=
        { t.mem with value := Function.update t.mem.value (node + t.valueOffset) value } })
        hT.offset).2 rfl).det pack
      subst hpack
      have hT₁ := hT.withValues (Function.update t.mem.value (node + t.valueOffset) value)
      obtain ⟨rfl, hfound⟩ := (bstFind_spec hT₁.cmp hT₁.offset hT₁.holds).det find
      have hfresh : node ∉ T.toList := fun hmem => unlinked (hT.holds.isLinked_iff.2 hmem)
      exact (hT₁.insert hcmp fresh hfresh hfound absent).det run
  | delete reached linked run ih =>
      obtain ⟨T, hT⟩ := ih
      exact (hT.delete (hT.holds.isLinked_iff.1 linked)).det run

/-- What a run of insertions and deletions guarantees about the tree it ends in. -/
structure DepthBounded (t : Bst K V) (cmp : K → V → Int) (T : RBTree Addr) : Prop where
  holds : Holds t T
  linked : ∀ x, t.IsLinked x ↔ x ∈ T.toList
  height : 2 ^ T.height ≤ (T.size + 1) ^ 2
  /-- Rounds enough for every search: the loop ends within them, where `bst_find` ends. -/
  rounds : ∃ n, 2 ^ n ≤ (T.size + 1) ^ 2 ∧ ∀ key, ∃ location,
    (bstFindLoop key n (bstFindStart t)).run t = .ok (location, t) ∧
      (bstFind key).run t = .ok (location, t)
  /-- The next insertion returns. -/
  insert : ∀ node value key, node ≠ null ∧ node ≠ t.nil ∧ Aligned node → ¬ t.IsLinked node →
    ∃ valuePtr t₁ location, (bstPackNode node value).run t = .ok (valuePtr, t₁) ∧
      (bstFind key).run t₁ = .ok (location, t₁) ∧
      (location.node = t₁.nil → ∃ t', (bstInsert node location).run t₁ = .ok ((), t'))
  /-- The next deletion returns. -/
  delete : ∀ node, t.IsLinked node → ∃ t', (bstDelete node).run t = .ok ((), t')

theorem TreeOk.find (h : TreeOk t cmp T) {n : Nat} (hn : T.height ≤ n) (key : K) :
    Returns (bstFindLoop key n (bstFindStart t)) t fun location t' => t' = t ∧
      FoundAt t (probe t cmp key) (seek (probe t cmp key) [] T).1 (seek (probe t cmp key) [] T).2
        location :=
  bstFindLoop_spec h.cmp h.offset (show Holds t (plug [] T) from h.holds) hn (foundAt_start h.holds _)

/-- A search that ends within few enough rounds is what `bst_find` returns. -/
theorem bstFind_of_rounds {n : Nat} {location : BstLocation}
    (h : (bstFindLoop key n (bstFindStart t)).run t = .ok (location, t')) (hn : n ≤ loopBound) :
    (bstFind key).run t = .ok (location, t') := by
  have hfind : Returns (bstFind key) t fun l s => l = location ∧ s = t' := by
    simp only [bstFind, returns_bind, returns_get]
    exact bstFindLoop_mono ⟨location, t', h, rfl, rfl⟩ hn
  obtain ⟨_, _, hrun, rfl, rfl⟩ := hfind
  exact hrun

theorem TreeOk.depthBounded (h : TreeOk t cmp T)
    (hcmp : ∀ k v, cmp k v = -1 ∨ cmp k v = 0 ∨ cmp k v = 1) : DepthBounded t cmp T where
  holds := h.holds
  linked _ := h.holds.isLinked_iff
  height := h.redBlack.two_pow_height_le
  rounds := by
    refine ⟨T.height, h.redBlack.two_pow_height_le, fun key => ?_⟩
    obtain ⟨location, t₁, hrun, rfl, -⟩ := h.find le_rfl key
    exact ⟨location, hrun, bstFind_of_rounds hrun (height_le_loopBound h.holds.nodup)⟩
  insert node value key hfresh hlinked := by
    have hfresh' : node ∉ T.toList := fun hmem => hlinked (h.holds.isLinked_iff.2 hmem)
    have h₁ := h.withValues (Function.update t.mem.value (node + t.valueOffset) value)
    obtain ⟨valuePtr, t₁, hpack, rfl⟩ := (returns_bstPackNode (p := node) (v := value)
      (Q := fun _ s => s = { t with mem := { t.mem with
        value := Function.update t.mem.value (node + t.valueOffset) value } }) h.offset).2 rfl
    obtain ⟨location, t₂, hfind, rfl, hfound⟩ : Returns (bstFind key) _ _ :=
      bstFind_spec h₁.cmp h₁.offset h₁.holds
    refine ⟨valuePtr, _, location, hpack, hfind, fun habsent => ?_⟩
    obtain ⟨_, t', hrun, -⟩ := h₁.insert hcmp hfresh hfresh' hfound habsent
    exact ⟨t', hrun⟩
  delete node hlinked := by
    obtain ⟨_, t', hrun, -⟩ := h.delete (h.holds.isLinked_iff.1 hlinked)
    exact ⟨t', hrun⟩

/-- In every run of insertions and deletions from an initialised tree, with a comparator that answers
    -1, 0 or 1, a tree of n nodes has a height h with 2^h at most (n+1)^2, and no search makes more
    rounds than that. -/
theorem depth_logarithmic {nilStorage : Addr} {conf : BstConf K V}
    (hvalid : jfsMlgValidComponent conf.component = true) (hconf : conf.cmp = some cmp)
    (hnull : nilStorage ≠ null) (haligned : Aligned nilStorage)
    (hcmp : ∀ k v, cmp k v = -1 ∨ cmp k v = 0 ∨ cmp k v = 1) (run : TreeRun nilStorage conf t) :
    ∃ T, DepthBounded t cmp T := by
  obtain ⟨T, hT⟩ := run.treeOk hvalid hconf hnull haligned hcmp
  exact ⟨T, hT.depthBounded hcmp⟩

end

/-- The tree after 5 and 6 were inserted and 5 was deleted. -/
theorem depth_logarithmic_sample : letI : Build := ⟨true⟩
    ∃ t, TreeRun 8 (sampleConf 2) t ∧ t.root = 4136 ∧ ¬ t.IsLinked 4096 ∧
      ∃ T, DepthBounded t sampleCmp T := by
  let : Build := ⟨true⟩
  let t₀ := stateAfter (jfsBstInit 8 (sampleConf 2) .ok) sampleRecord
  let p₁ := stateAfter (bstPackNode 4096 5) t₀
  let f₁ := stateAfter (bstFind 5) p₁
  let t₁ := stateAfter (bstInsert 4096 ⟨8, 8, 0⟩) f₁
  let p₂ := stateAfter (bstPackNode 4136 6) t₁
  let f₂ := stateAfter (bstFind 6) p₂
  let t₂ := stateAfter (bstInsert 4136 ⟨8, 4096, 1⟩) f₂
  let t₃ := stateAfter (bstDelete 4096) t₂
  have init₀ : (jfsBstInit 8 (sampleConf 2) .ok).run sampleRecord = .ok (.ok, t₀) :=
    run_of_resultOf (by decide +kernel)
  have run₀ : TreeRun 8 (sampleConf 2) t₀ := .init init₀
  have none₀ : ¬ t₀.IsLinked 4096 := fun h =>
    absurd (h.mem_of_closed (l := []) (by decide +kernel) (by decide +kernel)) (by decide)
  have pack₁ : (bstPackNode 4096 5).run t₀ = .ok (4128, p₁) := run_of_resultOf (by decide +kernel)
  have find₁ : (bstFind 5).run p₁ = .ok (⟨8, 8, 0⟩, f₁) := run_of_resultOf (by decide +kernel)
  have run₁ : TreeRun 8 (sampleConf 2) t₁ :=
    .insert run₀ (by decide +kernel) none₀ pack₁ find₁ (by decide +kernel)
      (run_of_resultOf (by decide +kernel))
  have none₁ : ¬ t₁.IsLinked 4136 := fun h =>
    absurd (h.mem_of_closed (l := [4096]) (by decide +kernel) (by decide +kernel)) (by decide)
  have pack₂ : (bstPackNode 4136 6).run t₁ = .ok (4168, p₂) := run_of_resultOf (by decide +kernel)
  have find₂ : (bstFind 6).run p₂ = .ok (⟨8, 4096, 1⟩, f₂) := run_of_resultOf (by decide +kernel)
  have run₂ : TreeRun 8 (sampleConf 2) t₂ :=
    .insert run₁ (by decide +kernel) none₁ pack₂ find₂ (by decide +kernel)
      (run_of_resultOf (by decide +kernel))
  have root₂ : t₂.root = 4096 := by decide +kernel
  have run₃ : TreeRun 8 (sampleConf 2) t₃ :=
    .delete run₂ (root₂ ▸ .root (by decide +kernel)) (run_of_resultOf (by decide +kernel))
  refine ⟨t₃, run₃, by decide +kernel, ?_, depth_logarithmic (by decide) rfl (by decide) (by decide) ?_ run₃⟩
  · exact fun h => absurd (h.mem_of_closed (l := [4136]) (by decide +kernel) (by decide +kernel)) (by decide)
  · intro k v
    unfold sampleCmp
    grind

end Jcl
