/-
Module: Jcl.Proofs.Bst.Update
Layer: Proofs
Purpose: Inserting and deleting a node, each with the cache update that follows it, keep the tree
  searchable. Everything that is not part of the tree stays: values, chains, free slots, the third cached
  node.
Imports: Jcl.Proofs.Bst.Order
Trusted boundary: none (fully proved)
Main exports: Relinks, Holds.insertCached, Holds.deleteCached, Searchable.insert, Searchable.delete
-/
import Jcl.Proofs.Bst.Order

namespace Jcl

open RedBlack RedBlack.RBTree TaggedWord

section

variable {K V O : Type} [LinearOrder O] {t t' t'' : Bst K V} {cmp : K → V → Int} {rk : K → O} {rv : V → O}
  {key : K} {s T T' : RBTree Addr} {ctx : List (Frame Addr)} {p q x : Addr} {location : BstLocation}
  {l m : List Addr}

/-- Only the links of the nodes in `l`, the root and the two ends in the cache may differ. -/
structure Relinks (t t' : Bst K V) (l : List Addr) : Prop where
  nil : t'.nil = t.nil
  list : t'.mem.list = t.mem.list
  value : t'.mem.value = t.mem.value
  previous : t'.cache.previous = t.cache.previous
  cmp : t'.cmp = t.cmp
  valueOffset : t'.valueOffset = t.valueOffset
  valueSize : t'.valueSize = t.valueSize
  freeList : t'.freeList = t.freeList
  parentColor : ∀ q ∉ l, t'.mem.parentColor q = t.mem.parentColor q

theorem Frames.relinks (h : Frames t t' l) : Relinks t t' l where
  nil := h.nil
  list := h.list
  value := h.value
  previous := by rw [h.cache]
  cmp := h.cmp
  valueOffset := h.valueOffset
  valueSize := h.valueSize
  freeList := h.freeList
  parentColor := fun q hq => (h.words q hq).1

/-- A change of the cached ends on top. -/
theorem Relinks.withCache (h : Relinks t t' l) {cache : BstCache}
    (hprevious : cache.previous = t'.cache.previous) : Relinks t { t' with cache := cache } l where
  nil := h.nil
  list := h.list
  value := h.value
  previous := hprevious.trans h.previous
  cmp := h.cmp
  valueOffset := h.valueOffset
  valueSize := h.valueSize
  freeList := h.freeList
  parentColor := h.parentColor

theorem Relinks.valueAt (h : Relinks t t' l) (p : Addr) : t'.valueAt p = t.valueAt p := by
  rw [Bst.valueAt, Bst.valueAt, h.value, h.valueOffset]

omit [LinearOrder O] in
theorem Relinks.rank (h : Relinks t t' l) (p : Addr) : t'.rank rv p = t.rank rv p := by
  rw [Bst.rank, Bst.rank, h.valueAt]

/-- The order of the nodes depends on their values only. -/
theorem Increasing.congr (h : Increasing t rv T) (hrank : ∀ p ∈ T.toList, t'.rank rv p = t.rank rv p) :
    Increasing t' rv T := by
  refine List.Pairwise.imp_of_mem (fun {p q} hp hq hlt => ?_) h
  rw [hrank p hp, hrank q hq]
  exact hlt

/-- A change of the cache does not touch the tree. -/
theorem Holds.withCache (h : Holds t T) (cache : BstCache) : Holds { t with cache := cache } T :=
  h.congr ⟨rfl, fun _ _ => ⟨rfl, rfl, rfl⟩⟩ rfl

/-- A node between smaller and greater ones. -/
theorem increasing_insert (hinc : Increasing t rv T) (hold : T.toList = l ++ m)
    (hnew : T'.toList = l ++ x :: m) (hl : ∀ q ∈ l, t.rank rv q < t.rank rv x)
    (hm : ∀ q ∈ m, t.rank rv x < t.rank rv q) : Increasing t rv T' := by
  rw [Increasing, hold] at hinc
  obtain ⟨hleft, hright, hcross⟩ := List.pairwise_append.1 hinc
  rw [Increasing, hnew]
  refine List.pairwise_append.2 ⟨hleft, List.pairwise_cons.2 ⟨hm, hright⟩, fun p hp q hq => ?_⟩
  rcases List.mem_cons.1 hq with rfl | hq
  · exact hl p hp
  · exact hcross p hp q hq

theorem increasing_remove (hinc : Increasing t rv T) (hold : T.toList = l ++ x :: m)
    (hnew : T'.toList = l ++ m) : Increasing t rv T' := by
  rw [Increasing, hold] at hinc
  rw [Increasing, hnew]
  exact hinc.sublist ((List.sublist_cons_self x m).append_left l)

/-- What the search said beside the gap suits `bst_insert` and the cache update. -/
theorem FoundAt.sides {g : Addr → Int} (h : FoundAt t g ctx leaf location) (hdir : Directed g ctx)
    (hanswers : SideAnswers g ctx) : LocationAt t.nil ctx location ∧ CacheSide ctx location := by
  cases ctx with
  | nil => exact ⟨h.locationAt hdir (by simp), h.parentCmp⟩
  | cons f ctx =>
      refine ⟨h.locationAt hdir ?_, ?_⟩
      · rintro f' rest heq hd
        cases heq
        exact hanswers.1 hd
      · rw [CacheSide, h.parentCmp, ctxCmp]
        exact ⟨hanswers.1, fun hd => ⟨(hdir f (by simp)).2 hd, hanswers.2⟩⟩

variable [Build]

/-- An insertion of a new node in the gap inside the frames, and the cache update. -/
theorem Holds.insertCached (h : Holds t T) (hrb : IsRedBlack T) (hcached : CacheExact t T)
    (hplug : plug ctx leaf = T) (hx : x ≠ null ∧ x ≠ t.nil ∧ Aligned x) (hfresh : x ∉ T.toList)
    (hloc : LocationAt t.nil ctx location) (hside : CacheSide ctx location) :
    Returns (do
      bstInsert x location
      bstUpdateCacheInsert location) t fun _ t' => ∃ T', Holds t' T' ∧ IsRedBlack T' ∧ CacheExact t' T' ∧
        T'.toList = before ctx ++ x :: after ctx ∧ Relinks t t' (x :: T.toList) := by
  rw [← hplug] at h hrb hcached hfresh
  rw [mem_plug_leaf] at hfresh
  rw [returns_bind]
  refine (bstInsert_spec h hx hfresh hrb.focus.2.2.2 hloc).mono fun _ t₁ ht₁ => ?_
  obtain ⟨T₀, hfix, hholds₁, hframe⟩ := ht₁
  have hexact : CacheExact t₁ (plug ctx leaf) := hcached.congr hframe.nil hframe.cache
  have hparent : location.parent = ctxParent t₁.nil ctx := by rw [hloc.parent, hframe.nil]
  refine (bstUpdateCacheInsert_spec hholds₁ hfix hexact h.nodup hparent hside).mono fun _ t₂ ht₂ => ?_
  obtain ⟨cache, rfl, hprevious, hexact₂⟩ := ht₂
  have hrelinks : Relinks t { t₁ with cache := cache } (x :: T.toList) := by
    refine Relinks.withCache (hframe.subset fun q hq => ?_).relinks hprevious
    rcases List.mem_cons.1 hq with rfl | hq
    · exact List.mem_cons_self
    · rw [← hplug]
      exact List.mem_cons_of_mem _ (mem_plug_leaf.2 hq)
  have hnew : T₀.blacken.toList = before ctx ++ x :: after ctx := by
    rw [toList_blacken, hfix.toList, toList_plug]
    simp
  exact ⟨T₀.blacken, hholds₁.withCache cache, hfix.isRedBlack hrb, hexact₂, hnew, hrelinks⟩

/-- A deletion of a node and the cache update. A build with assertions stops when the node was the only
    one. -/
theorem Holds.deleteCached (h : Holds t T) (hrb : IsRedBlack T) (hcached : CacheExact t T)
    (hx : x ∈ T.toList) (hlast : Build.asserts = true → T.toList ≠ [x]) :
    Returns (do
      bstDelete x
      bstUpdateCacheDelete x) t fun _ t' => ∃ T' l m, Holds t' T' ∧ IsRedBlack T' ∧ CacheExact t' T' ∧
        T.toList = l ++ x :: m ∧ T'.toList = l ++ m ∧ Relinks t t' (t.nil :: T.toList) := by
  obtain ⟨ctx, c, l, r, rfl⟩ := exists_plug hx
  have hxok := h.of_mem hx
  obtain ⟨-, -, hfocus, -⟩ := holds_plug.1 h
  have hold : (plug ctx (node c l x r)).toList =
      (before ctx ++ l.toList) ++ x :: (r.toList ++ after ctx) := by
    simp [toList_plug]
  rw [returns_bind]
  refine (bstDelete_spec h hrb).mono fun _ t₁ ht₁ => ?_
  obtain ⟨T₁, hholds₁, hrb₁, hlist, hframe, hstale⟩ := ht₁
  have hnew : T₁.toList = (before ctx ++ l.toList) ++ (r.toList ++ after ctx) := by
    simp [hlist]
  have hnotin : x ∉ t.nil :: T₁.toList := by
    have hnodup := h.nodup
    rw [hold] at hnodup
    rw [hnew, List.mem_cons, not_or]
    exact ⟨hxok.2.1, (List.nodup_middle.1 hnodup).notMem⟩
  have hfields : l = leaf ∨ r = leaf → StaleFields t₁ ctx l x r := by
    intro hone
    have hagree := (hstale hone).agree (m := [x]) (by simpa using hnotin)
    have hnil : t₁.nil = t.nil := hframe.nil
    have hright : t.child .right x = ptr t.nil r := hfocus.1.far
    refine ⟨?_, ?_, ?_⟩
    · rw [hagree.child (by simp), hnil, hfocus.1.near]
    · rw [hagree.child (by simp), hnil, hright]
    · rw [hagree.parent (by simp), hnil, hfocus.1.parent]
  have hexact : CacheExact t₁ (plug ctx (node c l x r)) := hcached.congr hframe.nil hframe.cache
  refine (bstUpdateCacheDelete_spec hholds₁ hxok.1 h.nodup hrb hexact hlist hfields ?_).mono
    fun _ t₂ ht₂ => ?_
  · intro hasserts hleaf
    have hempty : (before ctx ++ l.toList) ++ (r.toList ++ after ctx) = [] := by
      rw [← hnew, hleaf, toList_leaf]
    obtain ⟨hfront, hback⟩ := List.append_eq_nil_iff.1 hempty
    exact hlast hasserts (by rw [hold, hfront, hback, List.nil_append])
  · obtain ⟨cache, rfl, hprevious, hexact₂⟩ := ht₂
    have hrelinks := hframe.relinks.withCache hprevious
    exact ⟨T₁, _, _, hholds₁.withCache cache, hrb₁, hexact₂, hold, hnew, hrelinks⟩

/-- An insertion of a new node with its value already packed, at the place where the search for its key
    ended, and the cache update. -/
theorem Searchable.insert (h : Searchable t cmp rv T) (ranks : Ranks cmp rk rv)
    (hx : x ≠ null ∧ x ≠ t.nil ∧ Aligned x) (hfresh : x ∉ T.toList) (hrank : t.rank rv x = rk key)
    (habsent : Absent t rk rv key T) (hanswers : GapAnswers t cmp rk rv key)
    (hfound : FoundAt t (probe t cmp key) (gapCtx t cmp key T) leaf location) :
    Returns (do
      bstInsert x location
      bstUpdateCacheInsert location) t fun _ t' => ∃ T' l m, Searchable t' cmp rv T' ∧
        T.toList = l ++ m ∧ T'.toList = l ++ x :: m ∧ Relinks t t' (x :: T.toList) := by
  have hplug := habsent.plug_gapCtx ranks
  have hsides := habsent.sides ranks h.increasing
  have hdir := seek_directed (g := probe t cmp key) (t := T) directed_nil
  rw [← gapCtx] at hdir
  obtain ⟨hloc, hcache⟩ := hfound.sides hdir (h.sideAnswers ranks habsent hanswers)
  have hold : T.toList = before (gapCtx t cmp key T) ++ after (gapCtx t cmp key T) := by
    conv_lhs => rw [← hplug, toList_plug, toList_leaf, List.append_nil]
  refine (h.holds.insertCached h.redBlack h.cached hplug hx hfresh hloc hcache).mono fun _ t' ht' => ?_
  obtain ⟨T', hholds, hrb, hexact, hnew, hrelinks⟩ := ht'
  have hinc : Increasing t rv T' := by
    refine increasing_insert h.increasing hold hnew (fun q hq => ?_) fun q hq => ?_
    · rw [hrank]
      exact hsides.1 q hq
    · rw [hrank]
      exact hsides.2 q hq
  exact ⟨T', _, _, ⟨⟨hholds, hrb, hrelinks.cmp.trans h.cmp, by
    rw [hrelinks.valueOffset]
    exact h.offset⟩, hinc.congr fun p _ => hrelinks.rank p, hexact⟩, hold, hnew, hrelinks⟩

/-- A deletion of a node and the cache update. -/
theorem Searchable.delete (h : Searchable t cmp rv T) (hx : x ∈ T.toList)
    (hlast : Build.asserts = true → T.toList ≠ [x]) :
    Returns (do
      bstDelete x
      bstUpdateCacheDelete x) t fun _ t' => ∃ T' l m, Searchable t' cmp rv T' ∧
        T.toList = l ++ x :: m ∧ T'.toList = l ++ m ∧ Relinks t t' (t.nil :: T.toList) := by
  refine (h.holds.deleteCached h.redBlack h.cached hx hlast).mono fun _ t' ht' => ?_
  obtain ⟨T', l, m, hholds, hrb, hexact, hold, hnew, hrelinks⟩ := ht'
  have hinc := increasing_remove h.increasing hold hnew
  exact ⟨T', l, m, ⟨⟨hholds, hrb, hrelinks.cmp.trans h.cmp, by
    rw [hrelinks.valueOffset]
    exact h.offset⟩, hinc.congr fun p _ => hrelinks.rank p, hexact⟩, hold, hnew, hrelinks⟩

end

end Jcl
