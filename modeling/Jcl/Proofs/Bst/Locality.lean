/-
Module: Jcl.Proofs.Bst.Locality
Layer: Proofs
Purpose: What a tree does not touch. Every call on a tree, from any state that satisfies the invariant, writes to words
  of its slots and of its sentinel and to values of its slots, and the invariant does not depend on anything else in
  memory.
Imports: Jcl.Proofs.Bst.Rewrites
Trusted boundary: human-reviewed spec (NodeMemory.Confined, Stays)
Main exports: NodeMemory.Confined, NodeMemory.Same, Stays, BstInv.stays, jfsBstInit_confined, BstInv.elsewhere
-/
import Jcl.Proofs.Bst.Rewrites

namespace Jcl

open RedBlack RedBlack.RBTree TaggedWord

section

variable {K V O : Type} [LinearOrder O] {t t' t'' : Bst K V} {cmp : K → V → Int} {rk : K → O} {rv : V → O}
  {key : K} {value v : V} {err err' : JclErr} {T : RBTree Addr} {b p q x : Addr} {slots l : List Addr}
  {chains : Addr → List Addr} {m m' m'' : NodeMemory V} {nil : Addr} {valueOffset : UInt64}

/-- Memory differs at the nodes of a tree only. -/
structure NodeMemory.Confined (slots : List Addr) (nil : Addr) (valueOffset : UInt64) (m m' : NodeMemory V) : Prop where
  words : ∀ q ∉ nil :: slots, ∀ f : NodeField, m'.field q f = m.field q f
  value : ∀ a, (∀ p ∈ slots, a ≠ p + valueOffset) → m'.value a = m.value a

/-- Memory is the same at the nodes of a tree. -/
structure NodeMemory.Same (slots : List Addr) (nil : Addr) (valueOffset : UInt64) (m m' : NodeMemory V) : Prop where
  words : ∀ q ∈ nil :: slots, ∀ f : NodeField, m'.field q f = m.field q f
  value : ∀ p ∈ slots, m'.value (p + valueOffset) = m.value (p + valueOffset)

/-- What a call on a tree does to memory, and what it leaves of the record. -/
structure Stays (slots : List Addr) (t t' : Bst K V) : Prop where
  nil : t'.nil = t.nil
  valueOffset : t'.valueOffset = t.valueOffset
  mem : t.mem.Confined slots t.nil t.valueOffset t'.mem

theorem NodeMemory.Confined.refl : m.Confined slots nil valueOffset m := ⟨fun _ _ _ => rfl, fun _ _ => rfl⟩

theorem NodeMemory.Confined.trans (h : m.Confined slots nil valueOffset m')
    (h' : m'.Confined slots nil valueOffset m'') : m.Confined slots nil valueOffset m'' where
  words q hq f := (h'.words q hq f).trans (h.words q hq f)
  value a ha := (h'.value a ha).trans (h.value a ha)

/-- What is confined to the nodes of another tree leaves those of this one the same. -/
theorem NodeMemory.Confined.same {slots' : List Addr} {nil' : Addr} {valueOffset' : UInt64}
    (h : m.Confined slots nil valueOffset m') (hwords : ∀ q ∈ nil' :: slots', q ∉ nil :: slots)
    (hvalues : ∀ q ∈ slots', ∀ p ∈ slots, q + valueOffset' ≠ p + valueOffset) :
    m.Same slots' nil' valueOffset' m' where
  words q hq f := h.words q (hwords q hq) f
  value q hq := h.value (q + valueOffset') (hvalues q hq)

theorem Stays.refl : Stays slots t t := ⟨rfl, rfl, .refl⟩

theorem Stays.trans (h : Stays slots t t') (h' : Stays slots t' t'') : Stays slots t t'' where
  nil := h'.nil.trans h.nil
  valueOffset := h'.valueOffset.trans h.valueOffset
  mem := by
    have hmem := h'.mem
    rw [h.nil, h.valueOffset] at hmem
    exact h.mem.trans hmem

/-! ### Writes -/

/-- A change of the record only. -/
theorem Stays.of_mem (hmem : t'.mem = t.mem) (hnil : t'.nil = t.nil) (hoff : t'.valueOffset = t.valueOffset) :
    Stays slots t t' where
  nil := hnil
  valueOffset := hoff
  mem := by
    rw [hmem]
    exact .refl

/-- A word of a node is written. -/
theorem NodeMemory.Confined.setField {f : NodeField} {w : UInt64} (hp : p ∈ nil :: slots) :
    m.Confined slots nil valueOffset (m.setField p w f) where
  words q hq g := by
    have hne : q ≠ p := fun heq => hq (heq ▸ hp)
    rw [NodeMemory.field_setField, if_neg fun hand => hne hand.1]
  value a _ := by cases f <;> rfl

theorem Stays.setField {f : NodeField} {w : UInt64} (hp : p ∈ t.nil :: slots) :
    Stays slots t { t with mem := t.mem.setField p w f } := ⟨rfl, rfl, .setField hp⟩

theorem Stays.packed (hx : x ∈ slots) : Stays slots t (t.packed x v) where
  nil := rfl
  valueOffset := rfl
  mem := by
    constructor
    · intro q _ g
      cases g <;> rfl
    · intro a ha
      exact Function.update_of_ne (ha x hx) _ _

theorem Stays.attached (hb : b ∈ slots) (hx : x ∈ slots) : Stays slots t (t.attached b x) :=
  (Stays.setField (f := .list) (List.mem_cons_of_mem _ hx)).trans
    (Stays.setField (f := .list) (List.mem_cons_of_mem _ hb))

theorem Stays.detached (hb : b ∈ slots) : Stays slots t (t.detached b) :=
  Stays.setField (f := .list) (List.mem_cons_of_mem _ hb)

/-- The links of nodes are written. -/
theorem Frames.stays (h : Frames t t' l) (hl : ∀ q ∈ l, q ∈ t.nil :: slots) : Stays slots t t' where
  nil := h.nil
  valueOffset := h.valueOffset
  mem := by
    constructor
    · intro q hq f
      obtain ⟨hparent, hleft, hright⟩ := h.words q fun hin => hq (hl q hin)
      cases f with
      | parentColor => exact hparent
      | right => exact hright
      | left => exact hleft
      | list => exact congrFun h.list q
    · exact fun a _ => congrFun h.value a

theorem Stays.of_uncached (h : t'.uncached = t.uncached) : Stays slots t t' := by
  obtain ⟨hmem, hnil, -, hoff⟩ := Bst.uncached_eq_iff.1 h
  exact .of_mem hmem hnil hoff

theorem Stays.freed {w : UInt64} (hx : x ∈ slots) : Stays slots t (t.freed x w) :=
  .setField (List.mem_cons_of_mem _ hx)

/-! ### Every call -/

/-- Whatever a call rewrites is at the slots and the sentinel. -/
theorem Rewrites.stays {T' : RBTree Addr} (h : Rewrites slots t t' T T') (hT : ∀ p ∈ T.toList, p ∈ slots) :
    Stays slots t t' := by
  cases h with
  | same h => exact .of_uncached h
  | attached b x v hb hx h => exact ((Stays.packed hx).trans (.attached hb hx)).trans (.of_uncached h)
  | inserted ctx x v T₀ t₀ t₁ hx hplug hfix h₀ hframe h =>
      have hnodes : ∀ q ∈ x :: labels ctx, q ∈ t₀.nil :: slots := by
        intro q hq
        rcases List.mem_cons.1 hq with rfl | hq
        · exact List.mem_cons_of_mem _ hx
        · refine List.mem_cons_of_mem _ (hT q ?_)
          rw [hplug]
          exact mem_plug_leaf.2 hq
      have hpacked : Stays slots t t₀ := (Stays.packed hx).trans (.of_uncached h₀)
      exact (hpacked.trans (hframe.stays hnodes)).trans (.of_uncached h)
  | detached b x w hb hx h => exact ((Stays.detached hb).trans (.freed hx)).trans (.of_uncached h)
  | removed ctx c l r x T' t₁ w hx hplug hremoval hframe h =>
      have hnodes : ∀ q ∈ t.nil :: T.toList, q ∈ t.nil :: slots := by
        intro q hq
        rcases List.mem_cons.1 hq with rfl | hq
        · exact List.mem_cons_self
        · exact List.mem_cons_of_mem _ (hT q hq)
      exact ((hframe.stays hnodes).trans (.freed hx)).trans (.of_uncached h)

variable [Build]

/-- Whatever a call returns, it stays at the slots and the sentinel. -/
theorem BstInv.stays {op : BstOp K V} {out : BstOut V} (h : BstInv slots [] t cmp rv T chains)
    (ranks : Ranks cmp rk rv) (hkeyed : op.Keyed rk rv) (hallowed : PutsAllowed cmp rk rv t op)
    (run : op.call.run t = .ok (out, t')) : Stays slots t t' := by
  obtain ⟨T', chains', -, hrewrites⟩ := h.rewrites ranks hkeyed hallowed run
  exact hrewrites.stays fun p hp => h.slot_of_live (mem_live_of_mem hp)

/-! ### Initialisation -/

omit [LinearOrder O] [Build] in
/-- Words of the slots are linked. -/
theorem flLinkMemory_confined (m : NodeMemory V) (c : MlgComponent) :
    m.Confined c.slots nil valueOffset (flLinkMemory m c.ptr c.desc.size c.desc.count).1 := by
  have hsteps : ∀ (steps : List Nat) (m₁ : NodeMemory V) (head : Addr), (∀ i ∈ steps, i < c.desc.count.toNat) →
      m₁.Confined c.slots nil valueOffset (steps.foldl (flLinkStep c.ptr c.desc.size) (m₁, head)).1 := by
    intro steps
    induction steps with
    | nil => exact fun _ _ _ => .refl
    | cons i steps ih =>
        intro m₁ head hsteps
        have hslot : ByteMemory.slotAddr c.ptr c.desc.size i ∈ c.slots :=
          mem_slots.2 ⟨i, hsteps i List.mem_cons_self, rfl⟩
        refine .trans ?_ (ih _ _ fun j hj => hsteps j (List.mem_cons_of_mem i hj))
        constructor
        · intro q hq f
          have hne : q ≠ ByteMemory.slotAddr c.ptr c.desc.size i :=
            fun heq => hq (heq ▸ List.mem_cons_of_mem nil hslot)
          cases f with
          | parentColor => exact Function.update_of_ne hne _ _
          | right | left | list => rfl
        · exact fun _ _ => rfl
  exact hsteps _ m null fun i hi => List.mem_range.1 hi

/-- `jfs_bst_init` writes to the slots and to the sentinel. -/
theorem jfsBstInit_confined {conf : BstConf K V} (hvalid : jfsMlgValidComponent conf.component = true)
    (run : (jfsBstInit nil conf .ok).run t = .ok (err, t')) :
    t.mem.Confined conf.component.slots nil valueOffset t'.mem := by
  have hret : Returns (jfsBstInit nil conf .ok) t fun _ s => s = t' := ⟨_, _, run, rfl⟩
  have hinit : jfsFlInit t.mem conf.component .ok = ((flLinkMemory t.mem conf.component.ptr
      conf.component.desc.size conf.component.desc.count).1, some
      { list := (flLinkMemory t.mem conf.component.ptr conf.component.desc.size
          conf.component.desc.count).2, count := conf.component.desc.count }, .ok) := by
    simp [jfsFlInit, hvalid]
  have hlinked : t.mem.Confined conf.component.slots nil valueOffset (flLinkMemory t.mem conf.component.ptr
      conf.component.desc.size conf.component.desc.count).1 := flLinkMemory_confined t.mem conf.component
  simp only [jfsBstInit, returns_bind, returns_get, hinit, returns_modify, returns_ite, returns_writeLeft,
    returns_writeRight, returns_bstSetParentColor, returns_lift, returns_pure] at hret
  obtain ⟨-, hret⟩ := hret
  obtain ⟨-, -, -, -, -, offset, -, hnone, hsome⟩ := hret fun hne => hne rfl
  have hmem : t'.mem = (((flLinkMemory t.mem conf.component.ptr conf.component.desc.size
      conf.component.desc.count).1.setField nil nil .left).setField nil nil .right).setField nil (nil ||| bstBlack)
      .parentColor := by
    by_cases hcmp : conf.cmp.isNone = true
    · rw [← hnone hcmp]
      rfl
    · rw [← hsome hcmp]
      rfl
  rw [hmem]
  have hnil : nil ∈ nil :: conf.component.slots := List.mem_cons_self
  exact ((hlinked.trans (.setField hnil)).trans (.setField hnil)).trans (.setField hnil)

/-! ### Elsewhere -/

omit [Build] in
/-- The invariant of a tree depends on its nodes only, and so do the values that it stores. -/
theorem BstInv.elsewhere (h : BstInv slots [] t cmp rv T chains) (hsame : t.mem.Same slots t.nil t.valueOffset m') :
    BstInv slots [] { t with mem := m' } cmp rv T chains ∧
      storedValues { t with mem := m' } T chains = storedValues t T chains := by
  have hword : ∀ f : NodeField, ∀ q ∈ t.nil :: slots, m'.field q f = t.mem.field q f := fun f q hq => hsame.words q hq f
  have hvalue : ∀ p ∈ slots, ({ t with mem := m' } : Bst K V).valueAt p = t.valueAt p := hsame.value
  have hlive : ∀ p ∈ live T chains, p ∈ slots := fun p hp => h.slot_of_live hp
  have hlinked : ∀ p ∈ T.toList, p ∈ slots := fun p hp => hlive p (mem_live_of_mem hp)
  have hgroup : ∀ p ∈ T.toList, ∀ q ∈ chains p, q ∈ slots := fun p hp q hq => hlive q (mem_live.2 ⟨p, hp, .inr hq⟩)
  have hagree : Agree t { t with mem := m' } (t.nil :: T.toList) := by
    refine ⟨rfl, fun q hq => ?_⟩
    have hnode : q ∈ t.nil :: slots := by
      rcases List.mem_cons.1 hq with rfl | hq
      · exact List.mem_cons_self
      · exact List.mem_cons_of_mem _ (hlinked q hq)
    exact ⟨hword .parentColor q hnode, hword .left q hnode, hword .right q hnode⟩
  refine ⟨⟨?_, h.nodeSlots, ?_, ?_, ?_, h.previous⟩, ?_⟩
  · exact h.toSearchable.congr hagree rfl (fun d => by cases d <;> rfl) rfl rfl fun p hp => hvalue p (hlinked p hp)
  · exact h.free.congr h.nodeSlots.laws fun p hp _ => hword .parentColor p (List.mem_cons_of_mem _ hp)
  · intro p hp
    have hhead : m'.list p = t.mem.list p := hword .list p (List.mem_cons_of_mem _ (hlinked p hp))
    change Chain m'.list null (m'.list p) (chains p)
    rw [hhead]
    exact (h.chain p hp).congr fun q hq => hword .list q (List.mem_cons_of_mem _ (hgroup p hp q hq))
  · intro p hp q hq
    rw [Bst.rank, Bst.rank, hvalue q (hgroup p hp q hq), hvalue p (hlinked p hp)]
    exact h.equal p hp q hq
  · exact congrArg _ (List.map_congr_left fun p hp => hvalue p (hlive p hp))

end

end Jcl
