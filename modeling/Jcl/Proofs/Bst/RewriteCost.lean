/-
Module: Jcl.Proofs.Bst.RewriteCost
Layer: Proofs
Purpose: How much of the memory of a tree its calls rewrite. However large the tree is, a call gives at most 17 slots
  other neighbours; and although a single call may paint a whole path, the slots whose words change in a run are at most
  66 for each call.
Imports: Jcl.Lib.RedBlack.Amortised, Jcl.Proofs.Bst.Rewrites
Trusted boundary: human-reviewed spec (Bst.neighbours, Bst.words, Bst.changed)
Main exports: Bst.changed, ChangesFew, Rewrites.few, Rewrites.cost, call_rewires_few, run_rewrites_few
-/
import Jcl.Lib.RedBlack.Amortised
import Jcl.Proofs.Bst.Rewrites

namespace Jcl

open RedBlack RedBlack.RBTree TaggedWord

section

variable {K V O β : Type} [LinearOrder O] [DecidableEq β] {t t' t₀ t₁ : Bst K V} {cmp : K → V → Int} {rk : K → O}
  {rv : V → O} {T T' : RBTree Addr} {p q par x : Addr} {po : Option Addr} {slots ks l : List Addr} {n : Nat} {c : Color}
  {chains chains' : Addr → List Addr} {nilStorage : Addr} {conf : BstConf K V} {e : Links Addr} {f : Bst K V → Addr → β}

/-- The slots whose `f` differs between the two states. -/
def Bst.changed (f : Bst K V → Addr → β) (slots : List Addr) (t t' : Bst K V) : List Addr :=
  slots.filter fun p => f t' p ≠ f t p

/-- The addresses in a node: its parent, its children and the next on its chain. -/
def Bst.neighbours (t : Bst K V) (p : Addr) : Addr × Addr × Addr × Addr :=
  (t.parent p, t.mem.left p, t.mem.right p, t.mem.list p)

/-- The words of a node. -/
def Bst.words (t : Bst K V) (p : Addr) : UInt64 × Addr × Addr × Addr :=
  (t.mem.parentColor p, t.mem.left p, t.mem.right p, t.mem.list p)

theorem length_changed_le (hnodup : slots.Nodup) (h : ∀ p ∈ slots, p ∉ ks → f t' p = f t p) :
    (Bst.changed f slots t t').length ≤ ks.length := by
  refine ((hnodup.filter _).subperm fun p hp => ?_).length_le
  obtain ⟨hslot, hne⟩ := List.mem_filter.1 hp
  by_contra hks
  exact absurd (h p hslot hks) (of_decide_eq_true hne)

/-- The words of a node are its neighbours and its colour. -/
theorem Bst.words_eq (hneighbours : t'.neighbours p = t.neighbours p) (hcolor : t'.color p = t.color p) :
    t'.words p = t.words p := by
  simp only [Bst.neighbours, Prod.mk.injEq] at hneighbours
  obtain ⟨hparent, hleft, hright, hlist⟩ := hneighbours
  have hword : t'.mem.parentColor p = t.mem.parentColor p := by
    rw [← split (t'.mem.parentColor p), ← split (t.mem.parentColor p)]
    exact congrArg₂ _ hparent hcolor
  rw [Bst.words, Bst.words, hword, hleft, hright, hlist]

theorem Bst.neighbours_eq_of_words (h : t'.words p = t.words p) : t'.neighbours p = t.neighbours p := by
  simp only [Bst.words, Prod.mk.injEq] at h
  obtain ⟨hword, hleft, hright, hlist⟩ := h
  rw [Bst.neighbours, Bst.neighbours, Bst.parent, Bst.parent, hword, hleft, hright, hlist]

/-! ### Reading a tree in memory -/

theorem ptr_eq_label {nil : Addr} : ptr nil T = (label T).getD nil := by cases T <;> rfl

/-- The links of a tree are the addresses in memory. -/
theorem Linked.links (h : Linked t T par) (hpar : po.getD t.nil = par) (he : HasLinks T po e) :
    t.parent e.key = e.parent.getD t.nil ∧ t.mem.left e.key = e.left.getD t.nil ∧
      t.mem.right e.key = e.right.getD t.nil := by
  induction T generalizing par po with
  | leaf => exact he.elim
  | node c l x r ihl ihr =>
      obtain ⟨hx, hl, hr⟩ := h
      rcases he with rfl | he | he
      · refine ⟨hx.parent.trans hpar.symm, ?_, ?_⟩
        · exact hx.near.trans ptr_eq_label
        · exact hx.far.trans ptr_eq_label
      · exact ihl hl rfl he
      · exact ihr hr rfl he

theorem Linked.painted (h : Linked t T par) (he : Painted T (p, c)) : t.color p = Color.word c := by
  induction T generalizing par with
  | leaf => exact he.elim
  | node c' l x r ihl ihr =>
      obtain ⟨hx, hl, hr⟩ := h
      rcases he with heq | he | he
      · cases heq
        exact hx.color
      · exact ihl hl he
      · exact ihr hr he

/-- The nodes of the new tree have the neighbours that they had, but for a few. -/
theorem Rewires.memory (h : Rewires n none T T') (hholds : Holds t T) (hholds' : Holds t' T') (hnil : t'.nil = t.nil) :
    ∃ ks : List Addr, ks.length ≤ n ∧ ∀ p ∈ T'.toList, p ∉ ks →
      t'.mem.list p = t.mem.list p → t'.neighbours p = t.neighbours p := by
  obtain ⟨ks, hks, hlinks⟩ := h
  refine ⟨ks, hks, fun p hp hout hlist => ?_⟩
  obtain ⟨e, rfl, he'⟩ := exists_hasLinks (p := none) hp
  have he := (hlinks e he').resolve_left hout
  obtain ⟨hparent', hleft', hright'⟩ := hholds'.linked.links rfl he'
  obtain ⟨hparent, hleft, hright⟩ := hholds.linked.links rfl he
  rw [hnil] at hparent' hleft' hright'
  rw [Bst.neighbours, Bst.neighbours, hparent', hleft', hright', hparent, hleft, hright, hlist]

theorem Repaints.memory (h : Repaints n T T') (hholds : Holds t T) (hholds' : Holds t' T') :
    ∃ ks : List Addr, ks.length ≤ n ∧ ∀ p ∈ T'.toList, p ∉ ks → t'.color p = t.color p := by
  obtain ⟨ks, hks, hcolors⟩ := h
  refine ⟨ks, hks, fun p hp hout => ?_⟩
  obtain ⟨c, hc'⟩ := exists_painted hp
  have hc := (hcolors (p, c) hc').resolve_left hout
  rw [hholds'.linked.painted hc', hholds.linked.painted hc]

/-! ### One call -/

theorem Frames.words_eq (h : Frames t t' l) (hp : p ∉ l) : t'.words p = t.words p := by
  obtain ⟨hword, hleft, hright⟩ := h.words p hp
  rw [Bst.words, Bst.words, hword, hleft, hright, h.list]

theorem Bst.words_of_uncached (h : t'.uncached = t.uncached) : t'.words p = t.words p := by
  rw [Bst.words, Bst.words, (Bst.uncached_eq_iff.1 h).1]

theorem Bst.words_freed {w : UInt64} (hp : p ≠ x) : (t.freed x w).words p = t.words p := by
  have hword : (t.freed x w).mem.parentColor p = t.mem.parentColor p := Function.update_of_ne hp _ _
  rw [Bst.words, Bst.words, hword]
  rfl

/-- Outside a few slots no chain changes, and what changes in the tree is paid for by the potential. -/
def ChangesFew (slots : List Addr) (t t' : Bst K V) (T T' : RBTree Addr) : Prop :=
  t'.nil = t.nil ∧ ∃ (ks : List Addr) (m n : Nat), Rewires m none T T' ∧ Repaints n T T' ∧ ks.length + m ≤ 17 ∧
    ks.length + m + n + 3 * potential T' ≤ 3 * potential T + 66 ∧
    ∀ p ∈ slots, p ∉ ks → t'.mem.list p = t.mem.list p ∧ (p ∈ T'.toList ∨ t'.words p = t.words p)

/-- Where only the words of two slots change, the tree stays as it is. -/
theorem ChangesFew.of_words (ks : List Addr) (hks : ks.length ≤ 2) (hnil : t'.nil = t.nil)
    (hwords : ∀ p ∉ ks, t'.words p = t.words p) : ChangesFew slots t t' T T := by
  refine ⟨hnil, ks, 0, 0, Alters.refl, Alters.refl, by omega, by omega, fun p _ hp => ⟨?_, .inr (hwords p hp)⟩⟩
  exact congrArg (fun w => w.2.2.2) (hwords p hp)

theorem Rewrites.few (h : Rewrites slots t t' T T') (hinv : BstInv slots [] t cmp rv T chains) :
    ChangesFew slots t t' T T' := by
  cases h with
  | same h =>
      exact .of_words [] (Nat.zero_le 2) (Bst.uncached_eq_iff.1 h).2.1 fun p _ => Bst.words_of_uncached h
  | attached b x v hb hx h =>
      refine .of_words [b, x] (Nat.le_refl 2) (Bst.uncached_eq_iff.1 h).2.1 fun p hp => ?_
      simp only [List.mem_cons, List.not_mem_nil, or_false, not_or] at hp
      rw [Bst.words_of_uncached h]
      simp [Bst.words, Bst.attached, Bst.setList, Bst.packed, hp.1, hp.2]
  | detached b x w hb hx h =>
      refine .of_words [b, x] (Nat.le_refl 2) (Bst.uncached_eq_iff.1 h).2.1 fun p hp => ?_
      simp only [List.mem_cons, List.not_mem_nil, or_false, not_or] at hp
      rw [Bst.words_of_uncached h, Bst.words_freed hp.2]
      simp [Bst.words, Bst.detached, Bst.setList, hp.1]
  | inserted ctx x v T₀ t₀ t₁ hx hT hfix h₀ hframe h =>
      subst hT
      obtain ⟨n, hpaint, hle⟩ := hfix.repaints_hang hinv.redBlack
      have hpacked : ∀ p, t₀.words p = t.words p := fun p => (Bst.words_of_uncached h₀).trans rfl
      refine ⟨?_, [], 8, n, hfix.rewires_hang, hpaint, by simp, by simp only [List.length_nil]; omega, fun p _ _ => ?_⟩
      · rw [(Bst.uncached_eq_iff.1 h).2.1, hframe.nil, (Bst.uncached_eq_iff.1 h₀).2.1]
        rfl
      · constructor
        · rw [(Bst.uncached_eq_iff.1 h).1, hframe.list, (Bst.uncached_eq_iff.1 h₀).1]
          rfl
        · by_cases hp : p ∈ x :: labels ctx
          · refine .inl ?_
            rw [toList_blacken, hfix.toList]
            simpa [mem_plug] using hp
          · exact .inr ((Bst.words_of_uncached h).trans ((hframe.words_eq hp).trans (hpacked p)))
  | removed ctx c l r x T' t₁ w hx hT hremoval hframe h =>
      subst hT
      obtain ⟨n, hpaint, hle⟩ := hremoval.repaints hinv.redBlack
      refine ⟨?_, [x], 16, n, hremoval.rewires hinv.redBlack, hpaint, by simp, ?_, fun p hp hne => ?_⟩
      · rw [(Bst.uncached_eq_iff.1 h).2.1]
        exact hframe.nil
      · simp only [List.length_cons, List.length_nil]
        omega
      · rw [List.mem_singleton] at hne
        constructor
        · rw [(Bst.uncached_eq_iff.1 h).1]
          exact congrFun hframe.list p
        · by_cases hin : p ∈ (plug ctx (node c l x r)).toList
          · refine .inl ?_
            rw [toList_plug, toList_node] at hin
            rw [hremoval.toList]
            simp only [List.mem_append, List.mem_cons] at hin ⊢
            tauto
          · have hout : p ∉ t.nil :: (plug ctx (node c l x r)).toList := by
              rw [List.mem_cons, not_or]
              exact ⟨(hinv.nodeSlots.node p hp).2.1, hin⟩
            exact .inr ((Bst.words_of_uncached h).trans ((Bst.words_freed hne).trans (hframe.words_eq hout)))

/-- At most 17 slots get other neighbours, and those whose words change are paid for. -/
theorem Rewrites.cost (h : Rewrites slots t t' T T') (hinv : BstInv slots [] t cmp rv T chains)
    (hinv' : BstInv slots [] t' cmp rv T' chains') :
    (Bst.changed Bst.neighbours slots t t').length ≤ 17 ∧
      (Bst.changed Bst.words slots t t').length + 3 * potential T' ≤ 3 * potential T + 66 := by
  obtain ⟨hnil, ks, m, n, hrewires, hpaint, hfew, hpaid, hkept⟩ := h.few hinv
  obtain ⟨ks₁, hks₁, hlinks⟩ := Rewires.memory hrewires hinv.holds hinv'.holds hnil
  obtain ⟨ks₂, hks₂, hcolors⟩ := Repaints.memory hpaint hinv.holds hinv'.holds
  have hneighbours : ∀ p ∈ slots, p ∉ ks ++ ks₁ → t'.neighbours p = t.neighbours p := by
    intro p hp hout
    rw [List.mem_append, not_or] at hout
    obtain ⟨hlist, hin | hsame⟩ := hkept p hp hout.1
    · exact hlinks p hin hout.2 hlist
    · exact Bst.neighbours_eq_of_words hsame
  have hwords : ∀ p ∈ slots, p ∉ ks ++ ks₁ ++ ks₂ → t'.words p = t.words p := by
    intro p hp hout
    rw [List.mem_append, not_or] at hout
    obtain ⟨-, hin | hsame⟩ := hkept p hp fun hmem => hout.1 (List.mem_append_left _ hmem)
    · exact Bst.words_eq (hneighbours p hp hout.1) (hcolors p hin hout.2)
    · exact hsame
  have hlinked := length_changed_le hinv.nodeSlots.nodup hneighbours
  have hwritten := length_changed_le hinv.nodeSlots.nodup hwords
  simp only [List.length_append] at hlinked hwritten
  exact ⟨by omega, by omega⟩

/-! ### Runs -/

variable [Build]

/-- In every run, a call changes the addresses in at most 17 slots, however many values are stored. -/
theorem call_rewires_few {log : List (BstOp K V × BstOut V)} (hc : NodeComponent conf.component nilStorage)
    (hconf : conf.cmp = some cmp) (ranks : Ranks cmp rk rv)
    (run : (bstSystem nilStorage conf fun t op => op.Keyed rk rv ∧ PutsAllowed cmp rk rv t op).Reaches log t)
    {op : BstOp K V} {out : BstOut V} (hkeyed : op.Keyed rk rv) (hallowed : PutsAllowed cmp rk rv t op)
    (hcall : op.call.run t = .ok (out, t')) :
    (Bst.changed Bst.neighbours conf.component.slots t t').length ≤ 17 := by
  obtain ⟨T, chains, hinv⟩ : Stored conf.component.slots cmp rv t :=
    Stored.of_run hc hconf ranks (fun _ _ h => h.1) (fun _ _ _ h => h.2) run
  obtain ⟨T', chains', hinv', hrewrites⟩ := hinv.rewrites ranks hkeyed hallowed hcall
  exact (hrewrites.cost hinv hinv').1

/-- In every run, the slots whose words the calls change are at most 66 for each call: a call that paints a long path
    is paid for by the calls before it. -/
theorem run_rewrites_few {log : List (Bst K V × (BstOp K V × BstOut V) × Bst K V)}
    (hc : NodeComponent conf.component nilStorage) (hconf : conf.cmp = some cmp) (ranks : Ranks cmp rk rv)
    (run : (bstSystem nilStorage conf fun t op => op.Keyed rk rv ∧ PutsAllowed cmp rk rv t op).traced.Reaches log t) :
    (log.map fun e => (Bst.changed Bst.words conf.component.slots e.1 e.2.2).length).sum ≤ 66 * log.length := by
  let cost (t t' : Bst K V) : Nat := (Bst.changed Bst.words conf.component.slots t t').length
  let paid (t : Bst K V) (n : Nat) : Prop :=
    ∃ T chains, BstInv conf.component.slots [] t cmp rv T chains ∧ n = 3 * potential T
  have hinit : ∀ t, (∃ t₀, (jfsBstInit nilStorage conf .ok).run t₀ = .ok (.ok, t)) → paid t 0 := by
    rintro t ⟨t₀, hinit⟩
    have hspec := (jfsBstInit_spec hc.valid hconf hc.nil_ne_null (aligned_of_dvd hc.nil_aligned)).det hinit
    exact ⟨leaf, _, hspec.2.inv hc rv, rfl⟩
  obtain ⟨n, -, hsum⟩ := run.amortised cost paid 66 hinit fun t n l t' hpaid hstep => by
    obtain ⟨T, chains, hinv, rfl⟩ := hpaid
    obtain ⟨⟨hkeyed, hallowed⟩, hcall⟩ := hstep
    obtain ⟨T', chains', hinv', hrewrites⟩ := hinv.rewrites ranks hkeyed hallowed hcall
    exact ⟨_, ⟨T', chains', hinv', rfl⟩, (hrewrites.cost hinv hinv').2⟩
  exact (Nat.le_add_right _ n).trans hsum

end

/-- The second node changes itself and the first one. -/
theorem call_rewires_few_two : letI : Build := ⟨false⟩
    ∃ t t' : Bst Int Int, (BstOp.puts 5 5).call.run t = .ok ((.ok, none), t') ∧
      Bst.changed Bst.neighbours (sampleConf 3).component.slots t t' = [4136, 4176] ∧
      (Bst.changed Bst.neighbours (sampleConf 3).component.slots t t').length ≤ 17 := by
  let : Build := ⟨false⟩
  let t₀ := stateAfter (jfsBstInit 8 (sampleConf 3) .ok) sampleRecord
  have run₀ : (bstSystem 8 (sampleConf 3) fun t op => op.Keyed id id ∧
      PutsAllowed sampleCmp id id t op).Reaches [] t₀ := reaches_init (by decide +kernel)
  have hsafe : PutsSafe t₀ sampleCmp id id 6 :=
    ⟨fun _ => ⟨by decide +kernel, by decide +kernel⟩, fun _ => ⟨by decide +kernel,
      .of_three sampleCmp_ranks sampleCmp_three t₀ 6⟩⟩
  let t₁ := stateAfter (BstOp.puts (6 : Int) (6 : Int)).call t₀
  have run₁ := reaches_call run₀ (.puts 6 6) (.ok, none) ⟨rfl, fun _ => hsafe⟩ (by decide +kernel)
  have hsafe' : PutsSafe t₁ sampleCmp id id 5 :=
    ⟨fun _ => ⟨by decide +kernel, by decide +kernel⟩, fun _ => ⟨by decide +kernel,
      .of_three sampleCmp_ranks sampleCmp_three t₁ 5⟩⟩
  have hcall : (BstOp.puts (5 : Int) (5 : Int)).call.run t₁ =
      .ok ((.ok, none), stateAfter (BstOp.puts 5 5).call t₁) := run_of_resultOf (by decide +kernel)
  have hkeyed : (BstOp.puts (5 : Int) (5 : Int)).Keyed id id := rfl
  exact ⟨t₁, _, hcall, by decide +kernel,
    call_rewires_few (sampleComponent 3 (by simp)) rfl sampleCmp_ranks run₁ hkeyed (fun _ => hsafe') hcall⟩

/-- Two values are put and one is taken: seven slots in all. -/
theorem run_rewrites_few_three : letI : Build := ⟨false⟩
    ∃ t₀ t₁ t₂ t₃ : Bst Int Int, (bstSystem 8 (sampleConf 3) fun t op => op.Keyed id id ∧
        PutsAllowed sampleCmp id id t op).traced.Reaches [(t₀, (.puts 6 6, .ok, none), t₁),
          (t₁, (.puts 5 5, .ok, none), t₂), (t₂, (.getSmallest, .ok, some 5), t₃)] t₃ ∧
      (Bst.changed Bst.words (sampleConf 3).component.slots t₀ t₁).length +
        ((Bst.changed Bst.words (sampleConf 3).component.slots t₁ t₂).length +
          ((Bst.changed Bst.words (sampleConf 3).component.slots t₂ t₃).length + 0)) ≤ 66 * 3 := by
  let : Build := ⟨false⟩
  let t₀ := stateAfter (jfsBstInit 8 (sampleConf 3) .ok) sampleRecord
  let t₁ := stateAfter (BstOp.puts (6 : Int) (6 : Int)).call t₀
  let t₂ := stateAfter (BstOp.puts (5 : Int) (5 : Int)).call t₁
  let t₃ := stateAfter (BstOp.getSmallest : BstOp Int Int).call t₂
  have hsafe : PutsSafe t₀ sampleCmp id id 6 :=
    ⟨fun _ => ⟨by decide +kernel, by decide +kernel⟩, fun _ => ⟨by decide +kernel,
      .of_three sampleCmp_ranks sampleCmp_three t₀ 6⟩⟩
  have hsafe' : PutsSafe t₁ sampleCmp id id 5 :=
    ⟨fun _ => ⟨by decide +kernel, by decide +kernel⟩, fun _ => ⟨by decide +kernel,
      .of_three sampleCmp_ranks sampleCmp_three t₁ 5⟩⟩
  let sys : System (Bst Int Int) (BstOp Int Int × BstOut Int) := bstSystem 8 (sampleConf 3) fun t op => op.Keyed id id ∧
    PutsAllowed sampleCmp id id t op
  have step₁ : sys.step t₀ (.puts 6 6, .ok, none) t₁ := ⟨⟨rfl, fun _ => hsafe⟩, run_of_resultOf (by decide +kernel)⟩
  have step₂ : sys.step t₁ (.puts 5 5, .ok, none) t₂ := ⟨⟨rfl, fun _ => hsafe'⟩, run_of_resultOf (by decide +kernel)⟩
  have step₃ : sys.step t₂ (.getSmallest, .ok, some 5) t₃ :=
    ⟨⟨trivial, trivial⟩, run_of_resultOf (by decide +kernel)⟩
  have run₀ : sys.traced.Reaches [] t₀ := .init ⟨sampleRecord, run_of_resultOf (by decide +kernel)⟩
  clear_value t₀ t₁ t₂ t₃
  have run₁ : sys.traced.Reaches [(t₀, (.puts 6 6, .ok, none), t₁)] t₁ := run₀.step ⟨rfl, rfl, step₁⟩
  have run₂ : sys.traced.Reaches [(t₀, (.puts 6 6, .ok, none), t₁), (t₁, (.puts 5 5, .ok, none), t₂)] t₂ :=
    run₁.step ⟨rfl, rfl, step₂⟩
  have run₃ : sys.traced.Reaches [(t₀, (.puts 6 6, .ok, none), t₁), (t₁, (.puts 5 5, .ok, none), t₂),
      (t₂, (.getSmallest, .ok, some 5), t₃)] t₃ := run₂.step ⟨rfl, rfl, step₃⟩
  exact ⟨t₀, t₁, t₂, t₃, run₃, run_rewrites_few (sampleComponent 3 (by simp)) rfl sampleCmp_ranks run₃⟩

end Jcl
