/-
Module: Jcl.Proofs.Bst.Cache
Layer: Proofs
Purpose: The three cached nodes: what `bst_check_cache` returns, and that `bst_update_cache_insert` and
  `bst_update_cache_delete` keep `smallest` and `largest` at the two ends of the tree. Both read fields
  after the tree was repaired: the child of the old extremum after an insertion, and the fields of the
  node that is no longer linked after a deletion.
Imports: Jcl.Lib.RedBlack.Edge, Jcl.Proofs.Bst.Depth
Trusted boundary: none (fully proved)
Main exports: Bst.cached, CacheExact, Bst.CacheHit, bstCheckCache_spec, bstUpdateCacheInsert_spec,
  bstUpdateCacheDelete_spec
-/
import Jcl.Lib.RedBlack.Edge
import Jcl.Proofs.Bst.Depth

namespace Jcl

open RedBlack RedBlack.RBTree TaggedWord

section

variable {K V : Type} {t t' : Bst K V} {cmp : K → V → Int} {key : K} {T T₀ : RBTree Addr}
  {ctx : List (Frame Addr)} {f : Frame Addr} {c : Color} {l r : RBTree Addr} {p x par : Addr} {d : Dir}
  {location : BstLocation}

/-- The cached node at one end of the order. -/
def Bst.cached (t : Bst K V) : Dir → Addr
  | .left => t.cache.smallest
  | .right => t.cache.largest

/-- `smallest` and `largest` are the first and the last node of the tree. -/
def CacheExact (t : Bst K V) (T : RBTree Addr) : Prop := ∀ d, t.cached d = (edge d T).getD t.nil

/-- The cached nodes in the order in which `bst_check_cache` looks at them. -/
def Bst.cachedNodes (t : Bst K V) : List Addr := [t.cache.previous, t.cache.largest, t.cache.smallest]

/-- Some cached node has a value that compares equal to the key. -/
def Bst.CacheHit (t : Bst K V) (cmp : K → V → Int) (key : K) : Prop :=
  ∃ p ∈ t.cachedNodes, p ≠ t.nil ∧ cmp key (t.valueAt p) = 0

instance : Decidable (t.CacheHit cmp key) :=
  inferInstanceAs (Decidable (∃ p ∈ t.cachedNodes, p ≠ t.nil ∧ cmp key (t.valueAt p) = 0))

theorem CacheExact.congr (h : CacheExact t T) (hnil : t'.nil = t.nil) (hcache : t'.cache = t.cache) :
    CacheExact t' T := by
  intro d
  rw [hnil, ← h d]
  cases d <;> simp [Bst.cached, hcache]

/-- A cached end of the tree is a node of it. -/
theorem CacheExact.mem (h : CacheExact t T) (hne : t.cached d ≠ t.nil) : t.cached d ∈ T.toList := by
  rw [h d] at hne ⊢
  cases hedge : edge d T with
  | none => simp [hedge] at hne
  | some x => exact edge_mem hedge

theorem CacheExact.eq_nil_iff (h : CacheExact t T) (hnil : t.nil ∉ T.toList) :
    t.cached d = t.nil ↔ T = leaf := by
  rw [h d, ← edge_eq_none (d := d)]
  cases hedge : edge d T with
  | none => simp
  | some x => simpa using fun hx => hnil (by rw [← hx]; exact edge_mem hedge)

/-- A node that is cached at one end of the order is there. -/
theorem CacheExact.edge_eq (h : CacheExact t T) (hx : x ∈ T.toList)
    (hcached : x = t.cached d) : edge d T = some x := by
  cases hedge : edge d T with
  | none =>
      rw [edge_eq_none.1 hedge] at hx
      simp at hx
  | some y => simp [hcached, h d, hedge]

/-- One node is cached at both ends iff it is the only one. -/
theorem CacheExact.ends_eq_iff {l m : List Addr} {S : RBTree Addr} (h : CacheExact t S)
    (hnodup : S.toList.Nodup) (hold : S.toList = l ++ x :: m)
    (hnew : T.toList = l ++ m) : t.cached .left = t.cached .right ↔ T = leaf := by
  have hempty : T = leaf ↔ l = [] ∧ m = [] := by
    rw [← List.append_eq_nil_iff, ← hnew]
    exact ⟨fun hleaf => by rw [hleaf, toList_leaf], eq_leaf_of_toList⟩
  rw [hempty]
  constructor
  · intro hsame
    cases hfirst : edge .left S with
    | none =>
        rw [edge_eq_none.1 hfirst] at hold
        simp at hold
    | some y =>
        have hy : y = t.cached .left := by rw [h .left, hfirst, Option.getD_some]
        have hlast := h.edge_eq (edge_mem hfirst) (hy.trans hsame)
        have hone := toList_of_edges hnodup hfirst hlast
        have hlen := congrArg List.length (hold.symm.trans hone)
        simp only [List.length_append, List.length_cons, List.length_nil] at hlen
        exact ⟨List.eq_nil_of_length_eq_zero (by omega), List.eq_nil_of_length_eq_zero (by omega)⟩
  · rintro ⟨rfl, rfl⟩
    rw [h .left, h .right, edge_left, edge_right, hold]
    rfl

/-! ### After an insertion -/

/-- On the path to an end of the tree, each node is the child of the next. -/
theorem Linked.child_of_spine {rest : List Addr} (h : Linked t T par)
    (hspine : spine d T = x :: p :: rest) : t.child d p = x := by
  induction T generalizing par rest with
  | leaf => simp at hspine
  | node c l y r ihl ihr =>
      obtain ⟨near, far, hnode, ih⟩ : ∃ near far, node c l y r = dnode d c near y far ∧
          ∀ {par : Addr} {rest : List Addr}, Linked t near par → spine d near = x :: p :: rest →
            t.child d p = x := by
        cases d with
        | left => exact ⟨l, r, rfl, ihl⟩
        | right => exact ⟨r, l, rfl, ihr⟩
      rw [hnode] at h hspine
      obtain ⟨hy, hnear, -⟩ := linked_dnode.1 h
      rw [spine_dnode] at hspine
      cases hs : spine d near with
      | nil => simp [hs] at hspine
      | cons z m =>
          rw [hs, List.cons_append] at hspine
          obtain ⟨rfl, hm⟩ := List.cons.inj hspine
          cases m with
          | nil =>
              obtain ⟨rfl, -⟩ := List.cons.inj hm
              cases near with
              | leaf => simp at hs
              | node cn ln z' rn =>
                  obtain ⟨near', far', hnode'⟩ := exists_dnode d cn ln rn z'
                  rw [hnode', spine_dnode] at hs
                  have hz : spine d near' = [] ∧ z' = z := by
                    cases hs' : spine d near' with
                    | nil => simpa [hs'] using hs
                    | cons w m => simp [hs'] at hs
                  rw [hy.near, ptr_node, hz.2]
          | cons q m =>
              obtain ⟨rfl, -⟩ := List.cons.inj hm
              exact ih hnear hs

/-- The end of the tree on side `d` after `x` was put beside the frames. -/
theorem edge_inserted (h : Holds t T₀.blacken) (hfix : InsFix (f :: ctx) (node .red leaf x leaf) T₀)
    (hexact : CacheExact t (plug (f :: ctx) leaf)) (hnodup : (plug (f :: ctx) leaf).toList.Nodup) (d : Dir) :
    (f.dir = d ∧ f.key = t.cached d ∧ (∀ g ∈ f :: ctx, g.dir = d) ∧ t.child d f.key = x ∧
        edge d T₀.blacken = some x) ∨
      (¬ (f.dir = d ∧ f.key = t.cached d) ∧ (∃ g ∈ f :: ctx, g.dir ≠ d) ∧
        t.cached d = (edge d T₀.blacken).getD t.nil) := by
  have hblacken : edge d T₀.blacken = edge d T₀ := edge_congr (toList_blacken T₀) d
  rw [hblacken]
  by_cases hdirs : ∀ g ∈ f :: ctx, g.dir = d
  · left
    have hold := hexact d
    rw [edge_plug_leaf hdirs] at hold
    obtain ⟨rest, hspine⟩ := hfix.spine_of_dirs hdirs
    rw [← spine_blacken] at hspine
    exact ⟨hdirs f (by simp), hold.symm, hdirs, h.linked.child_of_spine hspine, hfix.edge_of_dirs hdirs⟩
  · right
    have hex : ∃ g ∈ f :: ctx, g.dir ≠ d := by
      simpa only [not_forall, exists_prop] using hdirs
    refine ⟨?_, hex, by rw [hexact d, hfix.edge_of_exists hex]⟩
    rintro ⟨hf, hkey⟩
    have hmem : f.key ∈ (plug (f :: ctx) leaf).toList := by simp [mem_plug]
    have hlabels : ∀ q ∈ (plug (f :: ctx) leaf).toList, q ∈ T₀.blacken.toList := by
      intro q hq
      rw [toList_blacken, hfix.toList, mem_plug]
      exact Or.inr (mem_plug_leaf.1 hq)
    have hedge := hexact.edge_eq hmem hkey
    have hrest : ∀ g ∈ ctx, g.dir = d :=
      dirs_of_edge (s := f.fill leaf) hnodup hedge (by simp)
    refine hdirs fun g hg => ?_
    rcases List.mem_cons.1 hg with rfl | hg
    · exact hf
    · exact hrest g hg

/-- What the comparator must have said beside the frames for `bst_update_cache_insert`: -1 on the left,
    something positive on the right, and 1 right of all nodes. -/
def CacheSide (ctx : List (Frame Addr)) (location : BstLocation) : Prop :=
  match ctx with
  | [] => location.parentCmp = 0
  | f :: _ => (f.dir = .left → location.parentCmp = -1) ∧
      (f.dir = .right → 0 < location.parentCmp ∧
        ((∀ g ∈ ctx, g.dir = .right) → location.parentCmp = 1))

theorem returns_bstUpdateCacheInsert {Q : Unit → Bst K V → Prop} (hpar : location.parent ≠ null) :
    Returns (bstUpdateCacheInsert location) t Q ↔
      if location.parentCmp = -1 ∧ location.parent = t.cache.smallest then
        Q () { t with cache := { t.cache with smallest := t.child .left location.parent } }
      else if location.parentCmp = 1 ∧ location.parent = t.cache.largest then
        Q () { t with cache := { t.cache with largest := t.child .right location.parent } }
      else if t.cache.largest = t.nil then
        Q () { t with cache := { t.cache with largest := t.root, smallest := t.root } }
      else Q () t := by
  simp only [bstUpdateCacheInsert, returns_bind, returns_get]
  by_cases hleft : location.parentCmp = -1 ∧ location.parent = t.cache.smallest
  · rw [if_pos hleft, if_pos hleft]
    simp [hpar]
  · rw [if_neg hleft, if_neg hleft]
    by_cases hright : location.parentCmp = 1 ∧ location.parent = t.cache.largest
    · rw [if_pos hright, if_pos hright]
      simp [hpar]
    · rw [if_neg hright, if_neg hright]
      by_cases hnil : t.cache.largest = t.nil
      · rw [if_pos hnil, if_pos hnil]
        simp
      · rw [if_neg hnil, if_neg hnil]
        simp

/-- Whatever the location, only the cache changes. -/
theorem bstUpdateCacheInsert_cache (hpar : location.parent ≠ null) :
    Returns (bstUpdateCacheInsert location) t fun _ t' => ∃ cache, t' = { t with cache := cache } := by
  rw [returns_bstUpdateCacheInsert hpar]
  split
  · exact ⟨_, rfl⟩
  · split
    · exact ⟨_, rfl⟩
    · split
      · exact ⟨_, rfl⟩
      · exact ⟨t.cache, rfl⟩

/-- `bst_update_cache_insert` after the repaired insertion of `x`. -/
theorem bstUpdateCacheInsert_spec (h : Holds t T₀.blacken)
    (hfix : InsFix ctx (node .red leaf x leaf) T₀) (hexact : CacheExact t (plug ctx leaf))
    (hnodup : (plug ctx leaf).toList.Nodup) (hparent : location.parent = ctxParent t.nil ctx)
    (hside : CacheSide ctx location) :
    Returns (bstUpdateCacheInsert location) t fun _ t' => ∃ cache, t' = { t with cache := cache } ∧
      cache.previous = t.cache.previous ∧ CacheExact t' T₀.blacken := by
  have hlabels : ∀ q ∈ labels ctx, q ≠ null ∧ q ≠ t.nil := by
    intro q hq
    have hmem : q ∈ T₀.blacken.toList := by
      rw [toList_blacken, hfix.toList, mem_plug]
      exact Or.inr hq
    exact ⟨(h.of_mem hmem).1, (h.of_mem hmem).2.1⟩
  cases ctx with
  | nil =>
      cases hfix
      have hroot : t.root = x := h.root
      have hparnull : location.parent ≠ null := by
        rw [hparent]
        exact h.nilOk.ne_null
      have hzero : location.parentCmp = 0 := hside
      have hlargest : t.cache.largest = t.nil := hexact .right
      rw [returns_bstUpdateCacheInsert hparnull, if_neg (by simp [hzero]), if_neg (by simp [hzero]),
        if_pos hlargest]
      refine ⟨_, rfl, rfl, fun d => ?_⟩
      cases d <;> simpa [Bst.cached, edge] using hroot
  | cons f ctx =>
      have hparnull : location.parent ≠ null := by
        rw [hparent]
        exact (hlabels f.key (by simp)).1
      have hkeys : location.parent = f.key := hparent
      obtain ⟨hleft, hright⟩ := hside
      have hnotnil : t.nil ∉ (plug (f :: ctx) leaf).toList := fun hnil =>
        (hlabels t.nil (mem_plug_leaf.1 hnil)).2 rfl
      have hlargest : t.cache.largest ≠ t.nil := fun hnil =>
        plug_cons_ne_leaf f ctx leaf ((hexact.eq_nil_iff (d := .right) hnotnil).1 hnil)
      rw [returns_bstUpdateCacheInsert hparnull]
      rcases edge_inserted h hfix hexact hnodup .left with ⟨hdir, hkey, hdirs, hchild, hedge⟩ |
        ⟨hnotleft, hexleft, hleftedge⟩
      · -- `x` is the new first node.
        have hother := edge_inserted h hfix hexact hnodup .right
        rw [if_pos ⟨hleft hdir, hkeys.trans hkey⟩]
        refine ⟨_, rfl, rfl, fun d => ?_⟩
        cases d with
        | left => simp [Bst.cached, hkeys, hchild, hedge]
        | right =>
            rcases hother with ⟨hdir', -⟩ | ⟨-, -, hsame⟩
            · rw [hdir] at hdir'
              cases hdir'
            · exact hsame
      · have hnotleft' : ¬ (location.parentCmp = -1 ∧ location.parent = t.cache.smallest) := by
          rintro ⟨hminus, hpar⟩
          refine hnotleft ⟨?_, hkeys.symm.trans hpar⟩
          cases hd : f.dir with
          | left => rfl
          | right =>
              have := (hright hd).1
              omega
        rw [if_neg hnotleft']
        rcases edge_inserted h hfix hexact hnodup .right with ⟨hdir, hkey, hdirs, hchild, hedge⟩ |
          ⟨hnotright, hexright, hrightedge⟩
        · -- `x` is the new last node.
          rw [if_pos ⟨(hright hdir).2 hdirs, hkeys.trans hkey⟩]
          refine ⟨_, rfl, rfl, fun d => ?_⟩
          cases d with
          | left => exact hleftedge
          | right => simp [Bst.cached, hkeys, hchild, hedge]
        · have hnotright' : ¬ (location.parentCmp = 1 ∧ location.parent = t.cache.largest) := by
            rintro ⟨hone, hpar⟩
            refine hnotright ⟨?_, hkeys.symm.trans hpar⟩
            cases hd : f.dir with
            | left =>
                have := hleft hd
                omega
            | right => rfl
          rw [if_neg hnotright', if_neg hlargest]
          refine ⟨t.cache, rfl, rfl, fun d => ?_⟩
          cases d with
          | left => exact hleftedge
          | right => exact hrightedge

/-- The outermost node has nothing on its side, and the frames around it all go there. -/
theorem outermost_focus (hnodup : (plug ctx (dnode d c near x far)).toList.Nodup)
    (hedge : edge d (plug ctx (dnode d c near x far)) = some x) :
    near = leaf ∧ ∀ f ∈ ctx, f.dir = d := by
  have hdirs := dirs_of_edge hnodup hedge (by simp)
  have hne : dnode d c near x far ≠ leaf := by cases d <;> simp [dnode]
  rw [edge_plug_of_dirs hdirs hne] at hedge
  exact ⟨near_leaf_of_edge (nodup_plug.1 hnodup).1 hedge, hdirs⟩

/-- What the fields of the deleted node `x` still say, if it had at most one child. -/
structure StaleFields (t : Bst K V) (ctx : List (Frame Addr)) (l : RBTree Addr) (x : Addr)
    (r : RBTree Addr) : Prop where
  left : t.child .left x = ptr t.nil l
  right : t.child .right x = ptr t.nil r
  parent : t.parent x = ctxParent t.nil ctx

variable [Build]

/-- `bst_check_cache` returns a cached node that matches the key, if there is one. -/
theorem bstCheckCache_spec (hcmp : t.cmp = some cmp) (hoff : 0 < t.valueOffset) :
    Returns (bstCheckCache key) t fun p t' => t' = t ∧
      ((p ≠ t.nil ∧ p ∈ t.cachedNodes ∧ cmp key (t.valueAt p) = 0) ∨ (p = t.nil ∧ ¬ t.CacheHit cmp key)) := by
  have hhit : ∀ p ∈ t.cachedNodes, p ≠ t.nil → cmp key (t.valueAt p) = 0 →
      (p ≠ t.nil ∧ p ∈ t.cachedNodes ∧ cmp key (t.valueAt p) = 0) ∨ (p = t.nil ∧ ¬ t.CacheHit cmp key) :=
    fun p hp hne hzero => Or.inl ⟨hne, hp, hzero⟩
  have hmiss : (∀ p ∈ t.cachedNodes, p = t.nil ∨ cmp key (t.valueAt p) ≠ 0) → ¬ t.CacheHit cmp key := by
    rintro hall ⟨p, hp, hne, hzero⟩
    exact (hall p hp).elim hne fun h => h hzero
  simp only [Bst.cachedNodes, List.mem_cons, List.not_mem_nil, or_false, forall_eq_or_imp,
    forall_eq] at hhit hmiss
  obtain ⟨hprevious, hlargest, hsmallest⟩ := hhit
  -- One cached node after the other: it matches, or the next is looked at.
  simp only [bstCheckCache, returns_bind, returns_get, returns_ite, returns_pure,
    returns_bstContainerValue hoff, returns_callCmp hcmp]
  refine ⟨fun hp => ⟨fun hzero => ⟨trivial, by simpa [Bst.cachedNodes] using hprevious hp hzero⟩, fun hp' => ?_⟩,
    fun hp => ?_⟩
  all_goals
    refine ⟨fun hl => ⟨fun hzero => ⟨trivial, by simpa [Bst.cachedNodes] using hlargest hl hzero⟩, fun hl' => ?_⟩,
      fun hl => ?_⟩
  all_goals
    refine ⟨fun hs => ⟨fun hzero => ⟨trivial, by simpa [Bst.cachedNodes] using hsmallest hs hzero⟩, fun hs' => ?_⟩,
      fun hs => ?_⟩
  all_goals
    refine ⟨trivial, Or.inr ⟨trivial, hmiss ⟨?_, ?_, ?_⟩⟩⟩
  all_goals
    first
      | exact Or.inr (by assumption)
      | exact Or.inl (not_not.1 (by assumption))

/-! ### After a deletion -/

/-- The node that replaces a deleted node at an end of the tree: read through the fields the deleted node
    still has, either the one below its other child or its parent. -/
theorem nextOutermost_spec (h : Holds t T) (hx : x ≠ null)
    (hrb : IsRedBlack (plug ctx (dnode d c leaf x far)))
    (hdirs : ∀ f ∈ ctx, f.dir = d) (hlist : T.toList = (plug ctx far).toList) (hne : T ≠ leaf)
    (hchild : t.child d.other x = ptr t.nil far) (hparent : t.parent x = ctxParent t.nil ctx) :
    Returns (do
      if (← readChild d.other x) ≠ t.nil then
        bstLocalExtremumLoop d loopBound (← readChild d.other x)
      else bstParent x) t fun p t' => t' = t ∧ edge d T = some p := by
  simp only [returns_bind, returns_readChild, returns_ite, returns_bstParent, hchild, hparent]
  refine ⟨hx, fun hfar => ⟨hx, ?_⟩, fun hfar => ⟨hx, trivial, ?_⟩⟩
  · -- The other child is a red leaf, and now the outermost node itself.
    rcases hrb.far_of_near_leaf with rfl | ⟨y, rfl⟩
    · exact absurd rfl hfar
    · have hedge : edge d T = some y := by
        rw [edge_congr hlist, edge_plug_of_dirs hdirs (by simp)]
        cases d <;> rfl
      obtain ⟨ctx', c', l', r', rfl⟩ := exists_plug (edge_mem hedge)
      obtain ⟨-, -, hlinked, hnodup⟩ := holds_plug.1 h
      have hdirs' := dirs_of_edge hnodup hedge (by simp)
      rw [edge_plug_of_dirs hdirs' (by simp)] at hedge ⊢
      refine (bstLocalExtremumLoop_spec hlinked (by simp)
        (height_le_loopBound (nodup_plug.1 hnodup).1)).mono fun p t' hp => ?_
      exact ⟨hp.2, hp.1⟩
  · -- The outermost node was a leaf: its parent is next.
    rcases hrb.far_of_near_leaf with rfl | ⟨y, rfl⟩
    · cases ctx with
      | nil => exact absurd (RBTree.eq_leaf_of_toList hlist) hne
      | cons f ctx => rw [edge_congr hlist, edge_plug_leaf hdirs, ctxParent_cons]
    · have hy : y ∈ T.toList := by
        rw [hlist, mem_plug]
        exact Or.inl (by simp)
      exact absurd (not_not.1 hfar) (h.of_mem hy).2.1

/-- `bst_update_cache_delete` after the repaired deletion of `x`. Its assertion that the only node of a
    tree is still the root fails, so that a build with assertions stops there. -/
theorem bstUpdateCacheDelete_spec (h : Holds t T) (hx : x ≠ null)
    (hnodup : (plug ctx (node c l x r)).toList.Nodup)
    (hrb : IsRedBlack (plug ctx (node c l x r))) (hexact : CacheExact t (plug ctx (node c l x r)))
    (hlist : T.toList = before ctx ++ (l.toList ++ r.toList) ++ after ctx)
    (hstale : l = leaf ∨ r = leaf → StaleFields t ctx l x r) (hlast : Build.asserts = true → T ≠ leaf) :
    Returns (bstUpdateCacheDelete x) t fun _ t' => ∃ cache, t' = { t with cache := cache } ∧
      cache.previous = t.cache.previous ∧ CacheExact t' T := by
  have hin : x ∈ (plug ctx (node c l x r)).toList := by simp [mem_plug]
  have hold : (plug ctx (node c l x r)).toList =
      (before ctx ++ l.toList) ++ x :: (r.toList ++ after ctx) := by
    simp [toList_plug]
  have hnew : T.toList = (before ctx ++ l.toList) ++ (r.toList ++ after ctx) := by
    simp [hlist]
  have hedge : ∀ d, x = t.cached d → edge d (plug ctx (node c l x r)) = some x := fun d =>
    hexact.edge_eq hin
  have hkeep : ∀ d, x ≠ t.cached d → t.cached d = (edge d T).getD t.nil := by
    intro d hne
    rw [edge_remove hold hnew, hexact d]
    intro hsome
    exact hne (by rw [hexact d, hsome, Option.getD_some])
  have hsingle := hexact.ends_eq_iff hnodup hold hnew
  simp only [bstUpdateCacheDelete, returns_bind, returns_get, returns_ite, returns_assert, returns_modify,
    returns_pure, returns_readLeft, returns_readRight]
  refine ⟨fun hsame => ?_, fun hdiff => ⟨fun hfirst => ?_, fun hnotfirst => ⟨fun hlast' => ?_,
    fun hnotlast => ?_⟩⟩⟩
  · -- The only node.
    have hleaf := hsingle.1 hsame
    refine ⟨fun hasserts => absurd hleaf (hlast hasserts), _, rfl, rfl, fun d => ?_⟩
    rw [hleaf]
    cases d <;> rfl
  · -- The first node.
    obtain ⟨rfl, hdirs⟩ := outermost_focus (d := .left) hnodup (hedge .left hfirst)
    have hfields := hstale (Or.inl rfl)
    have hnext := (nextOutermost_spec (d := .left) h hx hrb hdirs (by simp [hlist, toList_plug])
      (fun hleaf => hdiff (hsingle.2 hleaf)) hfields.right hfields.parent).mono
      (R := fun p t' => ∃ cache, { t' with cache := { t'.cache with smallest := p } } =
        { t with cache := cache } ∧ cache.previous = t.cache.previous ∧
          CacheExact { t' with cache := { t'.cache with smallest := p } } T) ?_
    · rw [← hfirst]
      simp only [Dir.other, returns_bind, returns_readChild, returns_ite] at hnext
      exact ⟨hx, fun _ => by simpa using hfields.left, hnext⟩
    · rintro p t' ⟨rfl, hp⟩
      refine ⟨_, rfl, rfl, fun d => ?_⟩
      cases d with
      | left => simp [Bst.cached, hp]
      | right => exact hkeep .right fun heq => hdiff (hfirst.symm.trans heq)
  · -- The last node.
    obtain ⟨rfl, hdirs⟩ := outermost_focus (d := .right) hnodup (hedge .right hlast')
    have hfields := hstale (Or.inr rfl)
    have hnext := (nextOutermost_spec (d := .right) h hx hrb hdirs (by simp [hlist, toList_plug])
      (fun hleaf => hdiff (hsingle.2 hleaf)) hfields.left hfields.parent).mono
      (R := fun p t' => ∃ cache, { t' with cache := { t'.cache with largest := p } } =
        { t with cache := cache } ∧ cache.previous = t.cache.previous ∧
          CacheExact { t' with cache := { t'.cache with largest := p } } T) ?_
    · rw [← hlast']
      simp only [Dir.other, returns_bind, returns_readChild, returns_ite] at hnext
      exact ⟨hx, fun _ => by simpa using hfields.right, hnext⟩
    · rintro p t' ⟨rfl, hp⟩
      refine ⟨_, rfl, rfl, fun d => ?_⟩
      cases d with
      | left => exact hkeep .left hnotfirst
      | right => simp [Bst.cached, hp]
  · refine ⟨t.cache, rfl, rfl, fun d => ?_⟩
    cases d with
    | left => exact hkeep .left hnotfirst
    | right => exact hkeep .right hnotlast

end

end Jcl
