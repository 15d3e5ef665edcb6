/-
Module: Jcl.Proofs.Bst.Storage
Layer: Proofs
Purpose: Where the node slots of a tree are: on the free list, linked in the tree, or on the chain of
  equal values behind a linked node. `BstInv` collects what the functions rely on, and each elementary
  move of a slot (allocated, packed, attached, detached, freed) keeps its part of it.
Imports: Jcl.Proofs.Bst.Init, Jcl.Proofs.Bst.Update
Trusted boundary: none (fully proved)
Main exports: NodeSlots, live, BstInv, returns_treeAttach, returns_treeDetach, BstInv.alloc, BstInv.attached
-/
import Jcl.Proofs.Bst.Init
import Jcl.Proofs.Bst.Update
import Mathlib.Data.List.Pairwise

namespace Jcl

open RedBlack RedBlack.RBTree TaggedWord

section

variable {K V O : Type} [LinearOrder O] {t t' t'' : Bst K V} {cmp : K → V → Int} {rk : K → O} {rv : V → O}
  {key : K} {s T T' : RBTree Addr} {b p q x : Addr} {slots out l m : List Addr} {chains : Addr → List Addr}

/-- Addresses that can hold the nodes of a tree with the sentinel at `nil`. -/
structure NodeSlots (slots : List Addr) (nil : Addr) : Prop where
  nodup : slots.Nodup
  length_lt : slots.length < 2 ^ 64
  node : ∀ p ∈ slots, p ≠ null ∧ p ≠ nil ∧ Aligned p

theorem NodeSlots.laws {nil : Addr} (h : NodeSlots slots nil) : LinkLaws (NodeMemory V) slots :=
  nodeLinkLaws h.nodup (fun hnull => (h.node null hnull).1 rfl) h.length_lt

/-- A linked node and the nodes of its chain. -/
def group (chains : Addr → List Addr) (p : Addr) : List Addr := p :: chains p

/-- The nodes that hold a stored value. -/
def live (T : RBTree Addr) (chains : Addr → List Addr) : List Addr := T.toList.flatMap (group chains)

theorem mem_live : q ∈ live T chains ↔ ∃ p ∈ T.toList, q = p ∨ q ∈ chains p := by
  simp [live, group, List.mem_flatMap]

theorem mem_live_of_mem (h : p ∈ T.toList) : p ∈ live T chains := mem_live.2 ⟨p, h, Or.inl rfl⟩

/-- What holds of a tree whose comparator follows the ranks `rv`; `out` are slots in the hands of a
    function, none between calls. -/
structure BstInv (slots out : List Addr) (t : Bst K V) (cmp : K → V → Int) (rv : V → O) (T : RBTree Addr)
    (chains : Addr → List Addr) : Prop extends Searchable t cmp rv T where
  nodeSlots : NodeSlots slots t.nil
  /-- The slots are shared out between the free list, the function and the live nodes. -/
  free : FlInv slots t.mem t.freeList (out ++ live T chains)
  /-- The chain behind a linked node ends with `NULL`. -/
  chain : ∀ p ∈ T.toList, Chain t.mem.list null (t.mem.list p) (chains p)
  /-- All values on a chain compare equal to the value of the node. -/
  equal : ∀ p ∈ T.toList, ∀ q ∈ chains p, t.rank rv q = t.rank rv p
  previous : t.cache.previous = t.nil ∨ t.cache.previous ∈ slots

theorem FlInv.subset {mem : NodeMemory V} {fl : Fl} (h : FlInv slots mem fl l) (hp : p ∈ l) : p ∈ slots := by
  obtain ⟨free, -, -, hperm⟩ := h
  exact hperm.subset (List.mem_append_right _ hp)

theorem FlInv.nodup {mem : NodeMemory V} {fl : Fl} (h : FlInv slots mem fl l) (hslots : slots.Nodup) :
    l.Nodup := by
  obtain ⟨free, -, -, hperm⟩ := h
  exact (List.nodup_append.1 (hperm.nodup_iff.2 hslots)).2.1

theorem BstInv.nodup (h : BstInv slots out t cmp rv T chains) : (out ++ live T chains).Nodup :=
  h.free.nodup h.nodeSlots.nodup

theorem BstInv.live_nodup (h : BstInv slots out t cmp rv T chains) : (live T chains).Nodup :=
  (List.nodup_append.1 h.nodup).2.1

theorem BstInv.slot_of_live (h : BstInv slots out t cmp rv T chains) (hp : p ∈ live T chains) : p ∈ slots :=
  h.free.subset (List.mem_append_right _ hp)

theorem BstInv.slot_of_out (h : BstInv slots out t cmp rv T chains) (hp : p ∈ out) : p ∈ slots :=
  h.free.subset (List.mem_append_left _ hp)

theorem BstInv.not_live (h : BstInv slots out t cmp rv T chains) (hp : p ∈ out) : p ∉ live T chains :=
  fun hlive => (List.nodup_append.1 h.nodup).2.2 p hp p hlive rfl

theorem BstInv.live_ok (h : BstInv slots out t cmp rv T chains) (hp : p ∈ live T chains) :
    p ≠ null ∧ p ≠ t.nil ∧ Aligned p := h.nodeSlots.node p (h.slot_of_live hp)

/-- A live node belongs to one linked node. -/
theorem BstInv.group_unique (h : BstInv slots out t cmp rv T chains) (hp : p ∈ T.toList) (hq : q ∈ T.toList)
    (hxp : x ∈ group chains p) (hxq : x ∈ group chains q) : p = q := by
  by_contra hne
  have hdisj := (List.nodup_flatMap.1 h.live_nodup).2
  have hsymm : Std.Symm (Function.onFun List.Disjoint (group chains)) := ⟨fun _ _ h => List.disjoint_comm.1 h⟩
  exact hdisj.forall hp hq hne hxp hxq

/-- A linked node is on no chain. -/
theorem BstInv.not_mem_chain (h : BstInv slots out t cmp rv T chains) (hp : p ∈ T.toList)
    (hq : q ∈ T.toList) : p ∉ chains q := by
  intro hin
  obtain rfl := h.group_unique hp hq List.mem_cons_self (List.mem_cons_of_mem _ hin)
  exact (List.nodup_cons.1 ((List.nodup_flatMap.1 h.live_nodup).1 p hp)).1 hin

/-- Every live node has the rank of a linked one. -/
theorem BstInv.exists_linked (h : BstInv slots out t cmp rv T chains) (hq : q ∈ live T chains) :
    ∃ p ∈ T.toList, t.rank rv q = t.rank rv p := by
  obtain ⟨p, hp, rfl | hq⟩ := mem_live.1 hq
  · exact ⟨q, hp, rfl⟩
  · exact ⟨p, hp, h.equal p hp q hq⟩

theorem live_eq_nil_iff : live T chains = [] ↔ T = leaf := by
  constructor
  · intro h
    refine eq_leaf_of_toList (List.eq_nil_iff_forall_not_mem.2 fun p hp => ?_)
    have hlive : p ∈ live T chains := mem_live_of_mem hp
    rw [h] at hlive
    exact List.not_mem_nil hlive
  · rintro rfl
    rfl

/-! ### What a searchable tree depends on -/

theorem Searchable.congr (h : Searchable t cmp rv T) (hagree : Agree t t' (t.nil :: T.toList))
    (hroot : t'.root = t.root) (hcache : ∀ d, t'.cached d = t.cached d) (hcmp : t'.cmp = t.cmp)
    (hoff : t'.valueOffset = t.valueOffset) (hvalue : ∀ p ∈ T.toList, t'.valueAt p = t.valueAt p) :
    Searchable t' cmp rv T where
  holds := h.holds.congr hagree hroot
  redBlack := h.redBlack
  cmp := hcmp.trans h.cmp
  offset := by
    rw [hoff]
    exact h.offset
  increasing := h.increasing.congr fun p hp => by rw [Bst.rank, Bst.rank, hvalue p hp]
  cached := by
    intro d
    rw [hcache d, h.cached d, hagree.1]

/-! ### Chains -/

/-- `bst_attach_node`. -/
def Bst.attached (t : Bst K V) (b x : Addr) : Bst K V := (t.setList x (t.mem.list b)).setList b x

/-- What `bst_detach_node` takes from a node with a chain. -/
def Bst.detached (t : Bst K V) (b : Addr) : Bst K V := t.setList b (t.mem.list (t.mem.list b))

/-- The slot that a removal at the linked node `p` frees. -/
def Bst.removedSlot (t : Bst K V) (p : Addr) : Addr := if t.mem.list p = null then p else t.mem.list p

theorem returns_bstContainerNode {Q : Addr → Bst K V → Prop} :
    Returns (bstContainerNode (p + t.valueOffset)) t Q ↔ Q p t := by
  simp [bstContainerNode]

/-- The attached node comes right behind its base, wherever in a group that is. -/
theorem chain_attached {t : Bst K V} (hnodup : (group chains p).Nodup)
    (hchain : Chain t.mem.list null (t.mem.list p) (chains p)) (hp : p ≠ null) (hx : x ≠ null)
    (hxnot : x ∉ group chains p) (hxb : x ≠ b) :
    Chain (t.attached b x).mem.list null ((t.attached b x).mem.list p) (insertAfter b x (group chains p)).tail ∧
      insertAfter b x (group chains p) = p :: (insertAfter b x (group chains p)).tail := by
  have hgroup : Chain t.mem.list null p (group chains p) := ⟨rfl, hp, hchain⟩
  have hlinked := hgroup.link (n := (t.attached b x).mem.list) (b := b) (x := x) hnodup hx
    (by simp [Bst.attached, Bst.setList, hxb]) (fun _ => by simp [Bst.attached, Bst.setList])
    (fun q hq hqb => by
      have hqx : q ≠ x := fun h => hxnot (h ▸ hq)
      simp [Bst.attached, Bst.setList, hqb, hqx])
  have hhead : insertAfter b x (group chains p) = p :: (insertAfter b x (group chains p)).tail := by
    rw [group, insertAfter]
    split <;> rfl
  rw [hhead] at hlinked
  exact ⟨hlinked.2.2, hhead⟩

/-! ### Moves of a slot -/

/-- The words of the nodes in `l` are not touched by changes of chains, values and the free list. -/
theorem Agree.of_links (hnil : t'.nil = t.nil) (hpc : ∀ q ∈ l, t'.mem.parentColor q = t.mem.parentColor q)
    (hleft : t'.mem.left = t.mem.left) (hright : t'.mem.right = t.mem.right) : Agree t t' l :=
  ⟨hnil, fun q hq => ⟨hpc q hq, by rw [hleft], by rw [hright]⟩⟩

/-- The value of the slot in hand is written. -/
def Bst.packed (t : Bst K V) (x : Addr) (v : V) : Bst K V :=
  { t with mem := { t.mem with value := Function.update t.mem.value (x + t.valueOffset) v } }

theorem Bst.packed_valueAt_self (t : Bst K V) (x : Addr) (v : V) : (t.packed x v).valueAt x = v := by
  simp [Bst.packed, Bst.valueAt]

theorem Bst.packed_valueAt (t : Bst K V) (v : V) (hne : p ≠ x) : (t.packed x v).valueAt p = t.valueAt p := by
  simp [Bst.packed, Bst.valueAt, hne]

theorem BstInv.packed (h : BstInv slots [x] t cmp rv T chains) (v : V) :
    BstInv slots [x] (t.packed x v) cmp rv T chains := by
  have hne : ∀ p ∈ live T chains, p ≠ x := fun p hp heq => h.not_live (by simp) (heq ▸ hp)
  refine ⟨h.toSearchable.congr (Agree.of_links rfl (fun _ _ => rfl) rfl rfl) rfl (fun d => by cases d <;> rfl)
    rfl rfl fun p hp => t.packed_valueAt v (hne p (mem_live_of_mem hp)), h.nodeSlots, h.free, h.chain,
    fun p hp q hq => ?_, h.previous⟩
  rw [Bst.rank, Bst.rank, t.packed_valueAt v (hne p (mem_live_of_mem hp)),
    t.packed_valueAt v (hne q (mem_live.2 ⟨p, hp, Or.inr hq⟩))]
  exact h.equal p hp q hq

/-- The slot in hand goes onto the chain of a live node of the same rank. -/
theorem BstInv.attached (h : BstInv slots [x] t cmp rv T chains) (hb : b ∈ live T chains)
    (hrank : t.rank rv x = t.rank rv b) :
    ∃ chains', BstInv slots [] (t.attached b x) cmp rv T chains' ∧ (live T chains').Perm (x :: live T chains) := by
  have hx := h.not_live (p := x) (by simp)
  have hxslot := h.nodeSlots.node x (h.slot_of_out (by simp))
  have hgroup : ∀ p ∈ T.toList, ∀ q ∈ group chains p, q ∈ live T chains := fun p hp q hq =>
    List.mem_flatMap.2 ⟨p, hp, hq⟩
  have hchains : ∀ p ∈ T.toList, _ := fun p hp => chain_attached (b := b) (x := x)
    (List.nodup_flatMap.1 h.live_nodup |>.1 p hp) (h.chain p hp) (h.holds.of_mem hp).1 hxslot.1
    (fun hin => hx (hgroup p hp x hin)) (fun heq => hx (heq ▸ hb))
  have hlive : live T (fun p => (insertAfter b x (group chains p)).tail) =
      T.toList.flatMap fun p => insertAfter b x (group chains p) :=
    List.flatMap_congr fun p hp => (hchains p hp).2.symm
  have hperm : (live T fun p => (insertAfter b x (group chains p)).tail).Perm (x :: live T chains) := by
    rw [hlive]
    exact flatMap_insertAfter h.live_nodup hb
  refine ⟨_, ⟨h.toSearchable.congr (Agree.of_links rfl (fun _ _ => rfl) rfl rfl) rfl
    (fun d => by cases d <;> rfl) rfl rfl fun _ _ => rfl, h.nodeSlots, h.free.perm hperm.symm,
    fun p hp => (hchains p hp).1, fun p hp q hq => ?_, h.previous⟩, hperm⟩
  have hq' : q ∈ insertAfter b x (group chains p) := List.mem_of_mem_tail hq
  change t.rank rv q = t.rank rv p
  by_cases hbp : b ∈ group chains p
  · have hranks : ∀ r ∈ group chains p, t.rank rv r = t.rank rv p := by
      intro r hr
      rcases List.mem_cons.1 hr with rfl | hr
      · rfl
      · exact h.equal p hp r hr
    rcases List.mem_cons.1 ((insertAfter_perm hbp).mem_iff.1 hq') with rfl | hq'
    · rw [hrank, hranks b hbp]
    · exact hranks q hq'
  · rw [insertAfter_of_not_mem hbp] at hq
    exact h.equal p hp q hq

/-- The first node of a chain is taken off it. -/
theorem BstInv.detached (h : BstInv slots [] t cmp rv T chains) (hp : p ∈ T.toList)
    (hne : t.mem.list p ≠ null) :
    ∃ chains', BstInv slots [t.mem.list p] (t.detached p) cmp rv T chains' ∧ t.mem.list p ∈ chains p ∧
      (live T chains).Perm (t.mem.list p :: live T chains') := by
  have hchain := h.chain p hp
  cases hc : chains p with
  | nil =>
      rw [hc] at hchain
      exact absurd hchain hne
  | cons q rest =>
      rw [hc] at hchain
      obtain ⟨rfl, -, hrest⟩ := hchain
      have hperm : (live T chains).Perm (t.mem.list p :: live T (Function.update chains p rest)) := by
        obtain ⟨A, B, hAB⟩ := List.append_of_mem hp
        have hnodup := h.holds.nodup
        rw [hAB] at hnodup
        have hnot := (List.nodup_middle.1 hnodup).notMem
        have hsame : ∀ l : List Addr, p ∉ l →
            l.flatMap (group (Function.update chains p rest)) = l.flatMap (group chains) := by
          intro l hl
          refine List.flatMap_congr fun r hr => ?_
          have hrp : r ≠ p := fun heq => hl (heq ▸ hr)
          rw [group, group, Function.update_of_ne hrp]
        rw [List.mem_append, not_or] at hnot
        simp only [live, hAB, List.flatMap_append, List.flatMap_cons]
        rw [hsame A hnot.1, hsame B hnot.2, group, group, hc, Function.update_self]
        have hswap : (p :: t.mem.list p :: rest ++ B.flatMap (group chains)).Perm
            (t.mem.list p :: (p :: rest ++ B.flatMap (group chains))) := List.Perm.swap _ _ _
        exact (hswap.append_left _).trans List.perm_middle
      have hself : (t.detached p).mem.list p = t.mem.list (t.mem.list p) := by
        simp [Bst.detached, Bst.setList]
      have hother : ∀ r, r ≠ p → (t.detached p).mem.list r = t.mem.list r := fun r hr => by
        simp [Bst.detached, Bst.setList, hr]
      refine ⟨Function.update chains p rest, ⟨h.toSearchable.congr (Agree.of_links rfl (fun _ _ => rfl) rfl rfl)
        rfl (fun d => by cases d <;> rfl) rfl rfl fun _ _ => rfl, h.nodeSlots, h.free.perm hperm,
        fun r hr => ?_, fun r hr q hq => ?_, h.previous⟩, List.mem_cons_self, hperm⟩
      · have hnot := h.not_mem_chain hp hr
        by_cases heq : r = p
        · subst heq
          rw [Function.update_self, hself]
          rw [hc] at hnot
          exact hrest.congr fun q hq => hother q fun heq => hnot (heq ▸ List.mem_cons_of_mem _ hq)
        · rw [Function.update_of_ne heq, hother r heq]
          exact (h.chain r hr).congr fun q hq => hother q fun heq => hnot (heq ▸ hq)
      · refine h.equal r hr q ?_
        by_cases heq : r = p
        · subst heq
          rw [Function.update_self] at hq
          rw [hc]
          exact List.mem_cons_of_mem _ hq
        · rwa [Function.update_of_ne heq] at hq

/-- Another node is cached. -/
theorem BstInv.withPrevious (h : BstInv slots out t cmp rv T chains) (hp : p ∈ slots) :
    BstInv slots out { t with cache := { t.cache with previous := p } } cmp rv T chains where
  toSearchable := h.toSearchable.congr (Agree.of_links rfl (fun _ _ => rfl) rfl rfl) rfl
    (fun d => by cases d <;> rfl) rfl rfl fun _ _ => rfl
  nodeSlots := h.nodeSlots
  free := h.free
  chain := h.chain
  equal := h.equal
  previous := Or.inr hp

/-- The chains and the free list of a tree after nodes of it were linked anew. -/
theorem BstInv.relinked {out' : List Addr} {chains' : Addr → List Addr} (h : BstInv slots out t cmp rv T chains)
    (hsearch : Searchable t' cmp rv T') (hrelinks : Relinks t t' l)
    (hl : ∀ q ∈ l, q ∈ slots → q ∈ out ++ live T chains)
    (hperm : (out ++ live T chains).Perm (out' ++ live T' chains'))
    (hchain : ∀ p ∈ T'.toList, Chain t.mem.list null (t.mem.list p) (chains' p))
    (hequal : ∀ p ∈ T'.toList, ∀ q ∈ chains' p, t.rank rv q = t.rank rv p) :
    BstInv slots out' t' cmp rv T' chains' where
  toSearchable := hsearch
  nodeSlots := by
    rw [hrelinks.nil]
    exact h.nodeSlots
  free := by
    rw [hrelinks.freeList]
    refine (h.free.congr h.nodeSlots.laws fun p hp hout => ?_).perm hperm
    exact hrelinks.parentColor p fun hin => hout (hl p hin hp)
  chain := by
    rw [hrelinks.list]
    exact hchain
  equal := by
    intro p hp q hq
    rw [hrelinks.rank, hrelinks.rank]
    exact hequal p hp q hq
  previous := by
    rw [hrelinks.previous, hrelinks.nil]
    exact h.previous

theorem returns_treeAttach {Q : Unit → Bst K V → Prop} :
    Returns (treeAttach (b + t.valueOffset) (x + t.valueOffset)) t Q ↔
      b ≠ null ∧ x ≠ null ∧ Q () (t.attached b x) := by
  simp only [treeAttach, bstAttachNode, returns_bind, returns_bstContainerNode, returns_readList,
    returns_writeList, Bst.attached]
  tauto

/-- `jfs_fl_alloc` on the tree's free list. -/
theorem BstInv.alloc (h : BstInv slots [] t cmp rv T chains) (hcount : t.freeList.count ≠ 0) :
    Returns bstFlAlloc t fun p t' => p = t.freeList.list ∧ BstInv slots [p] t' cmp rv T chains ∧
      ∃ fl, t' = { t with freeList := fl } := by
  obtain ⟨fl, hrun, -, -, -, hinv⟩ := FlInv.alloc_some h.nodeSlots.laws h.free hcount
  simp only [bstFlAlloc, returns_bind, returns_get, returns_lift, returns_set, returns_pure]
  refine ⟨(t.freeList.list, fl), hrun, rfl, ⟨h.toSearchable.congr (Agree.of_links rfl (fun _ _ => rfl) rfl rfl)
    rfl (fun d => by cases d <;> rfl) rfl rfl fun _ _ => rfl, h.nodeSlots, hinv, h.chain, h.equal, h.previous⟩,
    fl, rfl⟩

/-- `jfs_fl_free` of the slot in hand. -/
theorem BstInv.freed (h : BstInv slots [x] t cmp rv T chains) :
    Returns (bstFlFree x) t fun _ t' => BstInv slots [] t' cmp rv T chains ∧
      ∃ parentColor fl, t' = { t with mem := { t.mem with parentColor := parentColor }, freeList := fl } := by
  obtain ⟨hrun, hinv⟩ := FlInv.free h.nodeSlots.laws h.free
  have hxslot := h.nodeSlots.node x (h.slot_of_out (by simp))
  have hx := h.not_live (p := x) (by simp)
  simp only [bstFlFree, returns_modify]
  rw [hrun] at hinv ⊢
  refine ⟨⟨h.toSearchable.congr (Agree.of_links rfl (fun q hq => ?_) rfl rfl) rfl
    (fun d => by cases d <;> rfl) rfl rfl fun _ _ => rfl, h.nodeSlots, hinv, h.chain, h.equal, h.previous⟩,
    _, _, rfl⟩
  have hqx : q ≠ x := by
    rintro rfl
    rcases List.mem_cons.1 hq with heq | hq
    · exact hxslot.2.1 heq
    · exact hx (mem_live_of_mem hq)
  simp [LinkMemory.setNext, hqx]

variable [Build]

theorem returns_treeDetach {Q : Addr → Bst K V → Prop} (hoff : 0 < t.valueOffset) :
    Returns (treeDetach (b + t.valueOffset)) t Q ↔ b ≠ null ∧
      (t.mem.list b = null → Q (b + t.valueOffset) t) ∧
      (t.mem.list b ≠ null → Q (t.mem.list b + t.valueOffset) (t.detached b)) := by
  simp only [treeDetach, bstDetachNode, returns_bind, returns_bstContainerNode, returns_readList,
    returns_writeList, returns_ite, returns_pure, Bst.detached]
  rw [returns_bstContainerValue hoff, returns_bstContainerValue (by exact hoff)]
  tauto

/-- The slot in hand becomes a new node, with an empty chain. -/
theorem BstInv.insert {location : BstLocation} (h : BstInv slots [x] t cmp rv T chains)
    (ranks : Ranks cmp rk rv) (hrank : t.rank rv x = rk key) (habsent : Absent t rk rv key T)
    (hanswers : GapAnswers t cmp rk rv key) (hlist : t.mem.list x = null)
    (hfound : FoundAt t (probe t cmp key) (gapCtx t cmp key T) leaf location) :
    Returns (do
      bstInsert x location
      bstUpdateCacheInsert location) t fun _ t' => ∃ T' chains', BstInv slots [] t' cmp rv T' chains' ∧
        (live T' chains').Perm (x :: live T chains) ∧ Relinks t t' (x :: T.toList) := by
  have hx := h.not_live (p := x) (by simp)
  have hxT : x ∉ T.toList := fun hin => hx (mem_live_of_mem hin)
  refine (h.toSearchable.insert ranks (h.nodeSlots.node x (h.slot_of_out (by simp))) hxT hrank habsent
    hanswers hfound).mono fun _ t' ht' => ?_
  obtain ⟨T', A, B, hsearch, hold, hnew, hrelinks⟩ := ht'
  have hmem : ∀ p ∈ T'.toList, p = x ∨ p ∈ T.toList := by
    intro p hp
    rw [hnew, List.mem_append, List.mem_cons] at hp
    rw [hold, List.mem_append]
    tauto
  have hsame : ∀ p ∈ T.toList, Function.update chains x [] p = chains p := fun p hp =>
    Function.update_of_ne (show p ≠ x from fun heq => hxT (heq ▸ hp)) _ _
  have hgroups : ∀ m : List Addr, (∀ p ∈ m, p ∈ T.toList) →
      m.flatMap (group (Function.update chains x [])) = m.flatMap (group chains) := fun m hm =>
    List.flatMap_congr fun p hp => by rw [group, group, hsame p (hm p hp)]
  have hperm : (live T' (Function.update chains x [])).Perm (x :: live T chains) := by
    simp only [live, hnew, List.flatMap_append, List.flatMap_cons]
    rw [hgroups A (fun p hp => by simp [hold, hp]), hgroups B (fun p hp => by simp [hold, hp]), group,
      Function.update_self, hold, List.flatMap_append]
    exact List.perm_middle
  refine ⟨T', Function.update chains x [], h.relinked hsearch hrelinks (fun q hq _ => ?_) hperm.symm
    (fun p hp => ?_) (fun p hp q hq => ?_), hperm, hrelinks⟩
  · rcases List.mem_cons.1 hq with rfl | hq
    · simp
    · exact List.mem_append_right _ (mem_live_of_mem hq)
  · rcases hmem p hp with rfl | hp
    · rw [Function.update_self, hlist]
      exact rfl
    · rw [hsame p hp]
      exact h.chain p hp
  · rcases hmem p hp with rfl | hp
    · simp [Function.update_self] at hq
    · rw [hsame p hp] at hq
      exact h.equal p hp q hq

/-- A node with an empty chain is taken out of the tree. -/
theorem BstInv.delete (h : BstInv slots [] t cmp rv T chains) (hp : p ∈ T.toList)
    (hlist : t.mem.list p = null) (hlast : Build.asserts = true → live T chains ≠ [p]) :
    Returns (do
      bstDelete p
      bstUpdateCacheDelete p) t fun _ t' => ∃ T', BstInv slots [p] t' cmp rv T' chains ∧
        (live T chains).Perm (p :: live T' chains) ∧ Relinks t t' (t.nil :: T.toList) := by
  have hempty : chains p = [] := by
    have hchain := h.chain p hp
    rw [hlist] at hchain
    cases hc : chains p with
    | nil => rfl
    | cons q rest =>
        rw [hc] at hchain
        exact absurd hchain.1.symm hchain.2.1
  refine (h.toSearchable.delete hp fun hasserts hone => ?_).mono fun _ t' ht' => ?_
  · refine hlast hasserts ?_
    rw [live, hone]
    simp [group, hempty]
  · obtain ⟨T', A, B, hsearch, hold, hnew, hrelinks⟩ := ht'
    have hmem : ∀ q ∈ T'.toList, q ∈ T.toList := by
      intro q hq
      rw [hnew, List.mem_append] at hq
      rw [hold, List.mem_append, List.mem_cons]
      tauto
    have hperm : (live T chains).Perm (p :: live T' chains) := by
      simp only [live, hold, hnew, List.flatMap_append, List.flatMap_cons]
      rw [group, hempty]
      exact List.perm_middle
    refine ⟨T', h.relinked hsearch hrelinks (fun q hq hslot => ?_) hperm
      (fun q hq => h.chain q (hmem q hq)) (fun q hq => h.equal q (hmem q hq)), hperm, hrelinks⟩
    rcases List.mem_cons.1 hq with rfl | hq
    · exact absurd rfl (h.nodeSlots.node _ hslot).2.1
    · exact mem_live_of_mem hq

end

end Jcl
