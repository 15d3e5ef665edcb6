/-
Module: Jcl.Proofs.Bst.WellFormed
Layer: Proofs
Purpose: What the internal functions of the tree do to any well-formed red-black tree, reached by a run or
  not: insertion at any free place, deletion of any node, the two cache updates, and the removal that puts
  them together, with the one assertion in it that can be false.
Imports: Jcl.Proofs.Bst.Storage
Trusted boundary: human-reviewed spec (WellFormed, FreePlace, EndsCached)
Main exports: WellFormed, delete_wellFormed, FreePlace, insert_wellFormed, EndsCached, ends_stay_cached,
  removal_asserts_iff
-/
import Jcl.Proofs.Bst.Storage

namespace Jcl

open RedBlack RedBlack.RBTree TaggedWord

/-- The memory holds the red-black tree `T`. -/
structure WellFormed {K V : Type} (t : Bst K V) (T : RBTree Addr) : Prop extends Holds t T where
  redBlack : IsRedBlack T

/-! ### Two trees for fixed runs -/

/-- A tree of one node. -/
def oneNode : Bst Int Int where
  mem := ⟨fun _ => 9, fun _ => 8, fun _ => 8, fun _ => 0, fun _ => 5⟩
  root := 4096
  nil := 8
  cache := ⟨4096, 4096, 4096⟩
  cmp := some sampleCmp
  valueOffset := 32
  valueSize := 8
  freeList := ⟨null, 0⟩

/-- The same with a second node to the right. -/
def twoNodes : Bst Int Int :=
  { oneNode with
    mem := { oneNode.mem with
      parentColor := Function.update (fun _ => 9) 4136 4096
      right := Function.update (fun _ => 8) 4096 4136 }
    cache := ⟨4096, 4136, 4096⟩ }

theorem isRedBlack_single (x : Addr) : IsRedBlack (node .black leaf x leaf) :=
  ⟨rfl, ⟨fun h => (nomatch h), trivial, trivial⟩, 1, 0, rfl, rfl, rfl⟩

theorem oneNode_wellFormed : WellFormed oneNode (node .black leaf 4096 leaf) where
  nilOk := ⟨by decide, by decide, by decide, fun d => by cases d <;> rfl⟩
  root := rfl
  linked := ⟨⟨by decide, by decide, by decide, by decide, by decide, rfl, rfl⟩, trivial, trivial⟩
  nodup := by decide
  redBlack := isRedBlack_single 4096

theorem twoNodes_wellFormed : WellFormed twoNodes (node .black leaf 4096 (node .red leaf 4136 leaf)) where
  nilOk := ⟨by decide, by decide, by decide, fun d => by cases d <;> rfl⟩
  root := rfl
  linked := ⟨⟨by decide, by decide, by decide, by decide, by decide, rfl, rfl⟩, trivial,
    ⟨by decide, by decide, by decide, by decide, by decide, rfl, rfl⟩, trivial, trivial⟩
  nodup := by decide
  redBlack := ⟨rfl, ⟨fun h => (nomatch h), trivial, fun _ => ⟨rfl, rfl⟩, trivial, trivial⟩, 1, 0, rfl, rfl, 0, rfl,
    rfl, rfl⟩

section

variable {K V : Type} {t : Bst K V} {T : RBTree Addr} {x : Addr} {location : BstLocation}

/-! ### Where a node may be inserted -/

/-- The answer of the comparator that leads to the side. -/
def Dir.answer : Dir → Int
  | .left => -1
  | .right => 1

/-- The root of an empty tree. -/
def EmptyRoot (t : Bst K V) (location : BstLocation) : Prop :=
  location.node = t.nil ∧ location.parent = t.nil ∧ t.root = t.nil

/-- A side of a linked node on which it has no child. -/
def FreePlace (t : Bst K V) (d : Dir) (location : BstLocation) : Prop :=
  location.node = t.nil ∧ location.parentCmp = Dir.answer d ∧ t.IsLinked location.parent ∧
    t.child d location.parent = t.nil

theorem EmptyRoot.frames (h : EmptyRoot t location) (hholds : Holds t T) :
    T = leaf ∧ LocationAt t.nil [] location := by
  have hleaf : T = leaf := (ptr_eq_nil_iff hholds.linked).1 (by rw [← hholds.root, h.2.2])
  exact ⟨hleaf, h.1, h.2.1, fun f rest hnil => by cases hnil⟩

/-- A free place below a node is a gap whose innermost frame is that node. -/
theorem FreePlace.frames {d : Dir} (h : FreePlace t d location) (hholds : Holds t T) :
    ∃ f ctx, plug (f :: ctx) leaf = T ∧ f.dir = d ∧ f.key = location.parent ∧
      LocationAt t.nil (f :: ctx) location := by
  obtain ⟨hnode, hcmp, hlinked, hchild⟩ := h
  obtain ⟨ctx, c, l, r, rfl⟩ := exists_plug (hholds.isLinked_iff.1 hlinked)
  obtain ⟨near, far, hsides⟩ := exists_dnode d c l r location.parent
  rw [hsides] at hholds
  obtain ⟨-, -, hfocus, -⟩ := holds_plug.1 hholds
  obtain ⟨hat, hnear, -⟩ := linked_dnode.1 hfocus
  have hleaf : near = leaf := (ptr_eq_nil_iff hnear).1 (by rw [← hat.near, hchild])
  refine ⟨⟨d, c, location.parent, far⟩, ctx, by rw [hsides, hleaf]; rfl, rfl, rfl, hnode, rfl, ?_⟩
  rintro f rest heq
  cases heq
  rw [hcmp]
  cases d <;> simp [Dir.answer]

variable [Build]

/-- An insertion in the gap inside the frames. -/
theorem WellFormed.insert (h : WellFormed t T) (hplug : plug ctx leaf = T)
    (hx : x ≠ null ∧ x ≠ t.nil ∧ Aligned x) (hfresh : ¬ t.IsLinked x) (hloc : LocationAt t.nil ctx location) :
    Returns (bstInsert x location) t fun _ t' => ∃ T', WellFormed t' T' ∧
      T'.toList = before ctx ++ x :: after ctx := by
  rw [h.isLinked_iff, ← hplug, mem_plug_leaf] at hfresh
  have hholds := h.toHolds
  have hrb := h.redBlack
  rw [← hplug] at hholds hrb
  refine (bstInsert_spec hholds hx hfresh hrb.focus.2.2.2 hloc).mono fun _ t' ht' => ?_
  obtain ⟨T₀, hfix, hholds', -⟩ := ht'
  refine ⟨T₀.blacken, ⟨hholds', hfix.isRedBlack hrb⟩, ?_⟩
  rw [toList_blacken, hfix.toList, toList_plug]
  simp

/-- `bst_insert` puts a new node at the root of the empty tree, or right before or right after the node below
    which it hangs. -/
theorem insert_wellFormed (h : WellFormed t T) (hx : x ≠ null ∧ x ≠ t.nil ∧ Aligned x)
    (hfresh : ¬ t.IsLinked x) :
    (EmptyRoot t location → Returns (bstInsert x location) t fun _ t' => ∃ T', WellFormed t' T' ∧
      T.toList = [] ∧ T'.toList = [x]) ∧
    (FreePlace t .left location → Returns (bstInsert x location) t fun _ t' => ∃ T' l m, WellFormed t' T' ∧
      T.toList = l ++ location.parent :: m ∧ T'.toList = l ++ x :: location.parent :: m) ∧
    (FreePlace t .right location → Returns (bstInsert x location) t fun _ t' => ∃ T' l m, WellFormed t' T' ∧
      T.toList = l ++ location.parent :: m ∧ T'.toList = l ++ location.parent :: x :: m) := by
  refine ⟨fun hempty => ?_, fun hplace => ?_, fun hplace => ?_⟩
  · obtain ⟨rfl, hloc⟩ := hempty.frames h.toHolds
    have hplug : plug [] (leaf : RBTree Addr) = leaf := rfl
    exact (h.insert hplug hx hfresh hloc).mono fun _ t' ⟨T', h', hlist⟩ => ⟨T', h', rfl, hlist⟩
  · obtain ⟨f, ctx, hplug, hdir, hkey, hloc⟩ := hplace.frames h.toHolds
    refine (h.insert hplug hx hfresh hloc).mono fun _ t' ⟨T', h', hlist⟩ =>
      ⟨T', before ctx, f.sib.toList ++ after ctx, h', ?_, ?_⟩
    · rw [← hplug, toList_plug, ← hkey]
      simp [before, after, hdir]
    · rw [hlist, ← hkey]
      simp [before, after, hdir]
  · obtain ⟨f, ctx, hplug, hdir, hkey, hloc⟩ := hplace.frames h.toHolds
    refine (h.insert hplug hx hfresh hloc).mono fun _ t' ⟨T', h', hlist⟩ =>
      ⟨T', before ctx ++ f.sib.toList, after ctx, h', ?_, ?_⟩
    · rw [← hplug, toList_plug, ← hkey]
      simp [before, after, hdir]
    · rw [hlist, ← hkey]
      simp [before, after, hdir]

end

/-- A second node to the right of the first one. -/
theorem insert_wellFormed_two : letI : Build := ⟨true⟩
    Returns (bstInsert 4136 ⟨8, 4096, 1⟩) oneNode fun _ t' => ∃ T', WellFormed t' T' ∧
      T'.toList = [4096, 4136] := by
  let : Build := ⟨true⟩
  have hfresh : ¬ oneNode.IsLinked 4136 := fun h => absurd (oneNode_wellFormed.isLinked_iff.1 h) (by decide)
  have hplace : FreePlace oneNode .right ⟨8, 4096, 1⟩ := ⟨rfl, rfl, .root (by decide), rfl⟩
  refine ((insert_wellFormed oneNode_wellFormed (by decide) hfresh).2.2 hplace).mono fun _ t' ht' => ?_
  obtain ⟨T', l, m, h', hold, hnew⟩ := ht'
  refine ⟨T', h', ?_⟩
  have hlist : [4096] = l ++ 4096 :: m := hold
  cases l with
  | nil =>
      cases hlist
      exact hnew
  | cons y l => simp at hlist

section

variable {K V : Type} {t : Bst K V} {T : RBTree Addr} {x : Addr} [Build]

/-! ### Deletion -/

/-- `bst_delete` takes a linked node out of the sequence. The fields of a node with at most one child stay as
    they were. -/
theorem delete_wellFormed (h : WellFormed t T) (hx : t.IsLinked x) :
    Returns (bstDelete x) t fun _ t' => ∃ T' l m, WellFormed t' T' ∧
      T.toList = l ++ x :: m ∧ T'.toList = l ++ m ∧
      (t.child .left x = t.nil ∨ t.child .right x = t.nil → t'.mem.left x = t.mem.left x ∧
        t'.mem.right x = t.mem.right x ∧ t'.mem.parentColor x = t.mem.parentColor x) := by
  obtain ⟨ctx, c, l, r, rfl⟩ := exists_plug (h.isLinked_iff.1 hx)
  obtain ⟨-, -, ⟨hat, hl, hr⟩, -⟩ := holds_plug.1 h.toHolds
  have hright : t.child .right x = ptr t.nil r := hat.far
  have hold : (plug ctx (node c l x r)).toList = (before ctx ++ l.toList) ++ x :: (r.toList ++ after ctx) := by
    simp [toList_plug]
  refine (bstDelete_spec h.toHolds h.redBlack).mono fun _ t' ht' => ?_
  obtain ⟨T', hholds', hrb', hlist, -, hstale⟩ := ht'
  have hnew : T'.toList = (before ctx ++ l.toList) ++ (r.toList ++ after ctx) := by
    simp [hlist]
  refine ⟨T', _, _, ⟨hholds', hrb'⟩, hold, hnew, fun hone => ?_⟩
  rw [hat.near, hright, ptr_eq_nil_iff hl, ptr_eq_nil_iff hr] at hone
  have hnotin : x ∉ t.nil :: T'.toList := by
    have hnodup := h.nodup
    rw [hold] at hnodup
    rw [hnew, List.mem_cons, not_or]
    exact ⟨hat.ne_nil, (List.nodup_middle.1 hnodup).notMem⟩
  obtain ⟨hparent, hleft', hright'⟩ := (hstale hone).words x hnotin
  exact ⟨hleft', hright', hparent⟩

end

/-- The first of two nodes is deleted; it had one child. -/
theorem delete_wellFormed_two : letI : Build := ⟨true⟩
    Returns (bstDelete 4096) twoNodes fun _ t' => ∃ T', WellFormed t' T' ∧ T'.toList = [4136] ∧
      t'.mem.right 4096 = 4136 := by
  let : Build := ⟨true⟩
  refine (delete_wellFormed twoNodes_wellFormed (.root (by decide))).mono fun _ t' ht' => ?_
  obtain ⟨T', l, m, h', hold, hnew, hfields⟩ := ht'
  refine ⟨T', h', ?_, (hfields (Or.inl rfl)).2.1⟩
  have hlist : [4096, 4136] = l ++ 4096 :: m := hold
  cases l with
  | nil =>
      cases hlist
      exact hnew
  | cons y l =>
      have hin : (4096 : Addr) ∈ [4136] := by simp [(List.cons.inj hlist).2]
      exact absurd hin (by decide)

section

variable {K V : Type} {t : Bst K V} {cmp : K → V → Int} {T : RBTree Addr} {ctx : List (Frame Addr)}
  {location : BstLocation}

/-! ### The cached ends -/

/-- The two ends of the tree are cached, and the sentinel stands for the ends of the empty tree. -/
structure EndsCached (t : Bst K V) (T : RBTree Addr) : Prop where
  smallest : t.cache.smallest = T.toList.head?.getD t.nil
  largest : t.cache.largest = T.toList.getLast?.getD t.nil
  smallest_nil : t.cache.smallest = t.nil ↔ T.toList = []
  largest_nil : t.cache.largest = t.nil ↔ T.toList = []

theorem Holds.endsCached_iff (h : Holds t T) : EndsCached t T ↔ CacheExact t T := by
  have hlist : T.toList = [] ↔ T = leaf := ⟨eq_leaf_of_toList, fun hleaf => by rw [hleaf, toList_leaf]⟩
  constructor
  · intro hends d
    cases d with
    | left => exact hends.smallest.trans (by rw [edge_left])
    | right => exact hends.largest.trans (by rw [edge_right])
  · intro hexact
    refine ⟨?_, ?_, ?_, ?_⟩
    · rw [← edge_left]
      exact hexact .left
    · rw [← edge_right]
      exact hexact .right
    · rw [hlist]
      exact hexact.eq_nil_iff (d := .left) h.nil_not_mem
    · rw [hlist]
      exact hexact.eq_nil_iff (d := .right) h.nil_not_mem

/-- A comparator that answers -1, 0 or 1 leads to a location that suits the cache update. -/
theorem FoundAt.sides_of_three {key : K} (h : FoundAt t (probe t cmp key) ctx leaf location)
    (hdir : Directed (probe t cmp key) ctx) (hthree : ∀ k v, cmp k v = -1 ∨ cmp k v = 0 ∨ cmp k v = 1) :
    LocationAt t.nil ctx location ∧ CacheSide ctx location := by
  refine h.sides hdir ?_
  cases ctx with
  | nil => trivial
  | cons f ctx =>
      have hanswer := hthree key (t.valueAt f.key)
      obtain ⟨hleft, hright⟩ := hdir f List.mem_cons_self
      simp only [probe] at hleft hright
      refine ⟨fun hd => ?_, fun hall => ?_⟩
      · have := hleft hd
        simp only [probe]
        omega
      · have := hright (hall f List.mem_cons_self)
        simp only [probe]
        omega

variable [Build]

/-- In a build without assertions, an insertion where `bst_find` ended and the deletion of any linked node,
    each with its cache update, leave the ends of the new tree cached. -/
theorem ends_stay_cached (hbuild : Build.asserts = false) (h : WellFormed t T) (hends : EndsCached t T)
    (hcmp : t.cmp = some cmp) (hoff : 0 < t.valueOffset)
    (hthree : ∀ k v, cmp k v = -1 ∨ cmp k v = 0 ∨ cmp k v = 1) :
    (∀ key x, x ≠ null ∧ x ≠ t.nil ∧ Aligned x → ¬ t.IsLinked x →
      Returns (bstFind key) t fun location t₁ => t₁ = t ∧ (location.node = t.nil →
        Returns (do
          bstInsert x location
          bstUpdateCacheInsert location) t fun _ t' => ∃ T' l m, WellFormed t' T' ∧
            T.toList = l ++ m ∧ T'.toList = l ++ x :: m ∧ EndsCached t' T')) ∧
    ∀ x, t.IsLinked x →
      Returns (do
        bstDelete x
        bstUpdateCacheDelete x) t fun _ t' => ∃ T' l m, WellFormed t' T' ∧
          T.toList = l ++ x :: m ∧ T'.toList = l ++ m ∧ EndsCached t' T' := by
  have hcached := h.endsCached_iff.1 hends
  refine ⟨fun key x hx hfresh => ?_, fun x hx => ?_⟩
  · rw [h.isLinked_iff] at hfresh
    refine (bstFind_spec hcmp hoff h.toHolds).mono fun location t₁ ht₁ => ?_
    obtain ⟨rfl, hfound⟩ := ht₁
    refine ⟨rfl, fun habsent => ?_⟩
    have hplug := @plug_seek _ (probe t₁ cmp key) [] T
    have hholds := h.toHolds
    rw [← plug_nil T, ← hplug, holds_plug] at hholds
    have hgap : (seek (probe t₁ cmp key) [] T).2 = leaf := by
      rw [hfound.node] at habsent
      exact (ptr_eq_nil_iff hholds.2.2.1).1 habsent
    rw [hgap, plug_nil] at hplug
    rw [hgap] at hfound
    obtain ⟨hloc, hside⟩ := hfound.sides_of_three (seek_directed directed_nil) hthree
    refine (h.toHolds.insertCached h.redBlack hcached hplug hx hfresh hloc hside).mono fun _ t' ht' => ?_
    obtain ⟨T', hholds', hrb', hexact, hnew, -⟩ := ht'
    refine ⟨T', _, _, ⟨hholds', hrb'⟩, ?_, hnew, hholds'.endsCached_iff.2 hexact⟩
    conv_lhs => rw [← hplug, toList_plug, toList_leaf, List.append_nil]
  · have hlast : Build.asserts = true → T.toList ≠ [x] := fun hon => by rw [hbuild] at hon; cases hon
    refine (h.toHolds.deleteCached h.redBlack hcached (h.isLinked_iff.1 hx) hlast).mono fun _ t' ht' => ?_
    obtain ⟨T', l, m, hholds', hrb', hexact, hold, hnew, -⟩ := ht'
    exact ⟨T', l, m, ⟨hholds', hrb'⟩, hold, hnew, hholds'.endsCached_iff.2 hexact⟩

end

/-- An insertion of 7 next to 5, and the deletion of 5, which empties the tree. -/
theorem ends_stay_cached_one : letI : Build := ⟨false⟩
    (Returns (bstFind 7) oneNode fun location t₁ => t₁ = oneNode ∧ (location.node = 8 →
      Returns (do
        bstInsert 4136 location
        bstUpdateCacheInsert location) oneNode fun _ t' => ∃ T', WellFormed t' T' ∧ EndsCached t' T')) ∧
    Returns (do
      bstDelete 4096
      bstUpdateCacheDelete 4096) oneNode fun _ t' => ∃ T', WellFormed t' T' ∧ EndsCached t' T' := by
  let : Build := ⟨false⟩
  have hends : EndsCached oneNode (node .black leaf 4096 leaf) := ⟨rfl, rfl, by decide, by decide⟩
  have hfresh : ¬ oneNode.IsLinked 4136 := fun h => absurd (oneNode_wellFormed.isLinked_iff.1 h) (by decide)
  obtain ⟨hinsert, hdelete⟩ :=
    ends_stay_cached rfl oneNode_wellFormed hends rfl (by decide) fun k v => by unfold sampleCmp; grind
  refine ⟨(hinsert 7 4136 (by decide) hfresh).mono fun location t₁ ⟨ht₁, hrest⟩ => ⟨ht₁, fun habsent =>
    (hrest habsent).mono fun _ t' ⟨T', _, _, h', _, _, hends'⟩ => ⟨T', h', hends'⟩⟩, ?_⟩
  exact (hdelete 4096 (.root (by decide))).mono fun _ t' ⟨T', _, _, h', _, _, hends'⟩ => ⟨T', h', hends'⟩

section

variable {K V : Type} {t : Bst K V} {T : RBTree Addr} {p : Addr} [Build]

/-! ### The assertion after a removal -/

/-- A node with no other values is taken out and its slot is freed. -/
theorem WellFormed.remove (h : WellFormed t T) (hcached : CacheExact t T) (hoff : 0 < t.valueOffset)
    (hp : p ∈ T.toList) (hlist : t.mem.list p = null) (hlast : Build.asserts = true → T.toList ≠ [p]) :
    Returns (bstDetachAndDelete p) t fun v _ => v = t.valueAt p := by
  have hpok := h.of_mem hp
  have hroot : t.root ≠ t.nil := h.root_ne_nil hp
  have hdelete := h.toHolds.deleteCached h.redBlack hcached hp hlast
  rw [returns_bind] at hdelete
  simp only [bstDetachAndDelete, returns_bind, returns_get, returns_assert, returns_ite, returns_pure]
  refine ⟨fun _ => by simpa using hroot, ?_⟩
  rw [returns_bstContainerValue hoff, returns_treeDetach hoff]
  refine ⟨hpok.1, fun _ => ⟨fun _ => ?_, fun hne => absurd rfl hne⟩, fun hne => absurd hlist hne⟩
  refine hdelete.mono fun _ t₁ ht₁ => ht₁.mono fun _ t₂ ht₂ => ?_
  rw [bstFlFree, returns_modify]
  rfl

/-- With assertions, removing the only node stops at `assert(node == tree->root)`: the tree is empty by then. -/
theorem WellFormed.remove_fails (hasserts : Build.asserts = true) (h : WellFormed t T)
    (hcached : CacheExact t T) (hoff : 0 < t.valueOffset) (hlist : t.mem.list p = null)
    (hone : T.toList = [p]) : Fails (bstDetachAndDelete p) t .assertion := by
  have hp : p ∈ T.toList := by simp [hone]
  have hpok := h.of_mem hp
  have hroot : t.root ≠ t.nil := h.root_ne_nil hp
  refine Returns.fails (returns_get.2 (Returns.fails (returns_get.2 (Returns.fails ?_))))
  refine returns_assert.2 ⟨fun _ => by simpa using hroot, Returns.fails ?_⟩
  refine (returns_bstContainerValue hoff).2 (Returns.fails ((returns_treeDetach hoff).2
    ⟨hpok.1, fun _ => Returns.fails (returns_get.2 ?_), fun hne => absurd hlist hne⟩))
  rw [if_pos rfl]
  obtain ⟨ctx, c, l, r, rfl⟩ := exists_plug hp
  refine Returns.fails ((bstDelete_spec h.toHolds h.redBlack).mono fun _ t₁ ht₁ => Fails.bind ?_ _)
  obtain ⟨T₁, hholds₁, -, hlist₁, hframe, -⟩ := ht₁
  have hempty : T₁ = leaf := by
    refine eq_leaf_of_toList (List.eq_nil_of_length_eq_zero ?_)
    have hlen := congrArg List.length hone
    rw [hlist₁]
    simp only [toList_plug, toList_node, List.length_append, List.length_cons, List.length_nil] at hlen ⊢
    omega
  have hends : ∀ d, t.cached d = p := by
    intro d
    rw [hcached d]
    cases d with
    | left =>
        rw [edge_left, hone]
        rfl
    | right =>
        rw [edge_right, hone]
        rfl
  have hsame : t₁.cache.smallest = t₁.cache.largest := by
    rw [hframe.cache]
    exact (hends .left).trans (hends .right).symm
  have hfalse : decide (p = t₁.root) = false := by
    rw [hholds₁.root, hempty, ptr_leaf, hframe.nil]
    exact decide_eq_false hpok.2.1
  refine Returns.fails (returns_get.2 ?_)
  rw [if_pos hsame, hfalse]
  exact Fails.bind (fails_assert hasserts) _

/-- In a build with assertions, removing a linked node with no other values reaches no false assertion exactly
    if another node is linked. -/
theorem removal_asserts_iff (hasserts : Build.asserts = true) (h : WellFormed t T) (hends : EndsCached t T)
    (hoff : 0 < t.valueOffset) (hp : t.IsLinked p) (hlist : t.mem.list p = null) :
    (bstDetachAndDelete p).run t ≠ .error .assertion ↔ ∃ q, t.IsLinked q ∧ q ≠ p := by
  have hcached := h.endsCached_iff.1 hends
  have hpT := h.isLinked_iff.1 hp
  constructor
  · intro hrun
    by_contra hnone
    refine hrun (h.remove_fails hasserts hcached hoff hlist ?_)
    have hall : ∀ q ∈ T.toList, q = p := fun q hq =>
      not_not.1 fun hne => hnone ⟨q, h.isLinked_iff.2 hq, hne⟩
    have hrep := List.eq_replicate_of_mem hall
    have hnodup := h.nodup
    rw [hrep, List.nodup_replicate] at hnodup
    have hpos := List.length_pos_of_mem hpT
    rw [hrep, Nat.le_antisymm hnodup hpos]
    rfl
  · rintro ⟨q, hq, hne⟩ hfails
    refine Fails.not_returns hfails (h.remove hcached hoff hpT hlist fun _ hone => hne ?_)
    rw [h.isLinked_iff, hone] at hq
    exact List.mem_singleton.1 hq

end

/-- One of two nodes can be removed. -/
theorem removal_asserts_iff_two : letI : Build := ⟨true⟩
    (bstDetachAndDelete 4096).run twoNodes ≠ .error .assertion := by
  let : Build := ⟨true⟩
  have hroot : twoNodes.IsLinked 4096 := .root (by decide)
  have hother : twoNodes.IsLinked 4136 := .child .right hroot (by decide)
  have hends : EndsCached twoNodes (node .black leaf 4096 (node .red leaf 4136 leaf)) :=
    ⟨rfl, rfl, by decide, by decide⟩
  exact (removal_asserts_iff rfl twoNodes_wellFormed hends (by decide) hroot rfl).2 ⟨4136, hother, by decide⟩

/-- The only value is put and taken out again: `jfs_bst_get_smallest` stops at an assertion. -/
theorem removal_assert_false : letI : Build := ⟨true⟩
    ∃ t, resultOf (jfsBstInit 8 (sampleConf 1) .ok) sampleRecord = .ok .ok ∧
      (jfsBstPuts 5 5 .ok).run (stateAfter (jfsBstInit 8 (sampleConf 1) .ok) sampleRecord) = .ok (.ok, t) ∧
      WellFormed t (node .black leaf 4096 leaf) ∧ EndsCached t (node .black leaf 4096 leaf) ∧
      t.mem.list 4096 = null ∧ (bstDetachAndDelete 4096).run t = .error .assertion ∧
      (jfsBstGetSmallest .ok).run t = .error .assertion := by
  let : Build := ⟨true⟩
  let t := stateAfter (jfsBstPuts 5 5 .ok) (stateAfter (jfsBstInit 8 (sampleConf 1) .ok) sampleRecord)
  have hput : (jfsBstPuts 5 5 .ok).run (stateAfter (jfsBstInit 8 (sampleConf 1) .ok) sampleRecord) =
      .ok (.ok, t) := run_of_resultOf (by decide +kernel)
  have hnil : NilOk t := ⟨by decide +kernel, by decide +kernel, by decide +kernel, fun d => by
    cases d <;> decide +kernel⟩
  have hnode : NodeAt t .left .black t.nil t.nil 4096 t.nil :=
    ⟨by decide +kernel, by decide +kernel, by decide +kernel, by decide +kernel, by decide +kernel,
      by decide +kernel, by decide +kernel⟩
  refine ⟨t, by decide +kernel, hput, ⟨⟨hnil, by decide +kernel, ⟨hnode, trivial, trivial⟩, by decide⟩,
    isRedBlack_single 4096⟩, ⟨by decide +kernel, by decide +kernel, by decide +kernel, by decide +kernel⟩,
    by decide +kernel, ?_, ?_⟩
  · exact fails_of_resultOf (by decide +kernel)
  · exact fails_of_resultOf (by decide +kernel)

end Jcl
