/-
Module: Jcl.Lib.Returns
Layer: Library
Purpose: Total correctness for stateful code that may stop with an error. `Returns m s Q` says that `m`
  run from `s` comes back, with a result and a state that satisfy `Q`. Its rules follow the structure of
  `do` blocks: as simp lemmas they execute straight-line code symbolically, and `Returns.bind_of` plugs
  in the specification of a called function.
Trusted boundary: none (fully proved)
Main exports: Returns, returns_pure, returns_bind, returns_get, returns_modify, Returns.mono,
  Returns.bind_of, Returns.det, Fails, Returns.fails, ReturnsUnless, resultOf, stateAfter
-/

/-- `m` run from `s` returns normally, with a result and a state in `Q`. -/
def Returns {σ ε α : Type} (m : StateT σ (Except ε) α) (s : σ) (Q : α → σ → Prop) : Prop :=
  ∃ a s', m.run s = .ok (a, s') ∧ Q a s'

section

variable {σ ε α β : Type} {s : σ}

@[simp] theorem returns_pure {a : α} {Q : α → σ → Prop} :
    Returns (pure a : StateT σ (Except ε) α) s Q ↔ Q a s := by
  constructor
  · rintro ⟨b, s', h, hQ⟩
    cases h
    exact hQ
  · exact fun hQ => ⟨a, s, rfl, hQ⟩

@[simp] theorem returns_bind {m : StateT σ (Except ε) α} {f : α → StateT σ (Except ε) β}
    {Q : β → σ → Prop} :
    Returns (m >>= f) s Q ↔ Returns m s fun a s' => Returns (f a) s' Q := by
  simp only [Returns, StateT.run_bind]
  constructor
  · rintro ⟨b, s₂, h, hQ⟩
    cases hm : m.run s with
    | error e =>
        rw [hm] at h
        cases h
    | ok r =>
        obtain ⟨a, s₁⟩ := r
        rw [hm] at h
        exact ⟨a, s₁, rfl, b, s₂, h, hQ⟩
  · rintro ⟨a, s₁, hm, b, s₂, hf, hQ⟩
    refine ⟨b, s₂, ?_, hQ⟩
    rw [hm]
    exact hf

@[simp] theorem returns_get {Q : σ → σ → Prop} :
    Returns (get : StateT σ (Except ε) σ) s Q ↔ Q s s :=
  ⟨fun ⟨_, _, h, hQ⟩ => by cases h; exact hQ, fun hQ => ⟨s, s, rfl, hQ⟩⟩

@[simp] theorem returns_set {s' : σ} {Q : PUnit → σ → Prop} :
    Returns (set s' : StateT σ (Except ε) PUnit) s Q ↔ Q ⟨⟩ s' :=
  ⟨fun ⟨_, _, h, hQ⟩ => by cases h; exact hQ, fun hQ => ⟨⟨⟩, s', rfl, hQ⟩⟩

@[simp] theorem returns_modify {f : σ → σ} {Q : PUnit → σ → Prop} :
    Returns (modify f : StateT σ (Except ε) PUnit) s Q ↔ Q ⟨⟩ (f s) :=
  ⟨fun ⟨_, _, h, hQ⟩ => by cases h; exact hQ, fun hQ => ⟨⟨⟩, f s, rfl, hQ⟩⟩

@[simp] theorem returns_throw {e : ε} {Q : α → σ → Prop} :
    ¬ Returns (throw e : StateT σ (Except ε) α) s Q := by
  rintro ⟨_, _, h, _⟩
  cases h

@[simp] theorem returns_map {m : StateT σ (Except ε) α} {f : α → β} {Q : β → σ → Prop} :
    Returns (f <$> m) s Q ↔ Returns m s fun a s' => Q (f a) s' := by
  have hbind : f <$> m = m >>= fun a => pure (f a) := by simp
  rw [hbind, returns_bind]
  simp only [returns_pure]

/-- A computation without state, used inside one with state. -/
@[simp] theorem returns_lift {m : Except ε α} {Q : α → σ → Prop} :
    Returns (liftM m : StateT σ (Except ε) α) s Q ↔ ∃ a, m = .ok a ∧ Q a s := by
  cases m with
  | error e =>
      constructor
      · rintro ⟨_, _, h, _⟩
        cases h
      · rintro ⟨_, h, _⟩
        cases h
  | ok a =>
      constructor
      · rintro ⟨_, _, h, hQ⟩
        cases h
        exact ⟨a, rfl, hQ⟩
      · rintro ⟨_, h, hQ⟩
        cases h
        exact ⟨a, s, rfl, hQ⟩

theorem returns_ite {c : Prop} [Decidable c] {m n : StateT σ (Except ε) α} {Q : α → σ → Prop} :
    Returns (if c then m else n) s Q ↔ (c → Returns m s Q) ∧ (¬ c → Returns n s Q) := by
  by_cases h : c <;> simp [h]

/-- A weaker postcondition. -/
theorem Returns.mono {m : StateT σ (Except ε) α} {Q R : α → σ → Prop} (h : Returns m s Q)
    (hQ : ∀ a s', Q a s' → R a s') : Returns m s R := by
  obtain ⟨a, s', hm, hq⟩ := h
  exact ⟨a, s', hm, hQ a s' hq⟩

/-- Running `m` by its specification, then the rest. -/
theorem Returns.bind_of {m : StateT σ (Except ε) α} {f : α → StateT σ (Except ε) β}
    {P : α → σ → Prop} {Q : β → σ → Prop} (hm : Returns m s P)
    (hf : ∀ a s', P a s' → Returns (f a) s' Q) : Returns (m >>= f) s Q :=
  returns_bind.2 (hm.mono hf)

/-- Code is deterministic: any other outcome is the one that was specified. -/
theorem Returns.det {m : StateT σ (Except ε) α} {Q : α → σ → Prop} (h : Returns m s Q) {a : α} {s' : σ}
    (hrun : m.run s = .ok (a, s')) : Q a s' := by
  obtain ⟨b, s₁, hm, hQ⟩ := h
  rw [hrun] at hm
  cases hm
  exact hQ

/-- Where the outcome is known exactly, a postcondition says something about that outcome. -/
theorem Returns.iff_of_eq {m : StateT σ (Except ε) α} {Q : α → σ → Prop} {a : α} {s' : σ}
    (h : Returns m s fun b s₁ => b = a ∧ s₁ = s') : Returns m s Q ↔ Q a s' := by
  obtain ⟨_, _, hrun, rfl, rfl⟩ := h
  constructor
  · rintro ⟨b, s₁, hrun', hQ⟩
    rw [hrun] at hrun'
    cases hrun'
    exact hQ
  · exact fun hQ => ⟨_, _, hrun, hQ⟩

/-- Two specifications of one computation hold of the same outcome. -/
theorem Returns.and {m : StateT σ (Except ε) α} {Q R : α → σ → Prop} (h : Returns m s Q)
    (h' : Returns m s R) : Returns m s fun a s' => Q a s' ∧ R a s' := by
  obtain ⟨a, s', hrun, hQ⟩ := h
  exact ⟨a, s', hrun, hQ, h'.det hrun⟩

/-! ### Faults -/

/-- `m` stops with the fault `e`. -/
def Fails (m : StateT σ (Except ε) α) (s : σ) (e : ε) : Prop := m.run s = .error e

theorem Fails.bind {m : StateT σ (Except ε) α} {e : ε} (h : Fails m s e) (f : α → StateT σ (Except ε) β) :
    Fails (m >>= f) s e := by
  rw [Fails] at h
  rw [Fails, StateT.run_bind, h]
  rfl

/-- The first part returns, and the rest stops. -/
theorem Returns.fails {m : StateT σ (Except ε) α} {f : α → StateT σ (Except ε) β} {e : ε}
    (h : Returns m s fun a s' => Fails (f a) s' e) : Fails (m >>= f) s e := by
  obtain ⟨a, s', hm, hf⟩ := h
  rw [Fails] at hf
  rw [Fails, StateT.run_bind, hm]
  exact hf

theorem Fails.not_returns {m : StateT σ (Except ε) α} {e : ε} (h : Fails m s e) {Q : α → σ → Prop} :
    ¬ Returns m s Q := by
  rintro ⟨a, s', hm, -⟩
  rw [Fails, hm] at h
  cases h

/-- `m` returns with a result and a state in `Q`, unless `P` holds and it stops with the fault `e`. -/
def ReturnsUnless (P : Prop) (e : ε) (m : StateT σ (Except ε) α) (s : σ) (Q : α → σ → Prop) : Prop :=
  Returns m s Q ∨ (P ∧ Fails m s e)

theorem ReturnsUnless.mono {P : Prop} {e : ε} {m : StateT σ (Except ε) α} {Q R : α → σ → Prop}
    (h : ReturnsUnless P e m s Q) (hQ : ∀ a s', Q a s' → R a s') : ReturnsUnless P e m s R := by
  rcases h with h | h
  · exact .inl (h.mono hQ)
  · exact .inr h

theorem ReturnsUnless.imp {P P' : Prop} {e : ε} {m : StateT σ (Except ε) α} {Q : α → σ → Prop}
    (h : ReturnsUnless P e m s Q) (hP : P → P') : ReturnsUnless P' e m s Q := by
  rcases h with h | ⟨hp, h⟩
  · exact .inl h
  · exact .inr ⟨hP hp, h⟩

theorem ReturnsUnless.bind_of {P : Prop} {e : ε} {m : StateT σ (Except ε) α} {f : α → StateT σ (Except ε) β}
    {R : α → σ → Prop} {Q : β → σ → Prop} (hm : ReturnsUnless P e m s R)
    (hf : ∀ a s', R a s' → ReturnsUnless P e (f a) s' Q) : ReturnsUnless P e (m >>= f) s Q := by
  rcases hm with ⟨a, s', hrun, hR⟩ | ⟨hp, hfails⟩
  · rcases hf a s' hR with hreturns | ⟨hp, hfails⟩
    · exact .inl (returns_bind.2 ⟨a, s', hrun, hreturns⟩)
    · exact .inr ⟨hp, Returns.fails ⟨a, s', hrun, hfails⟩⟩
  · exact .inr ⟨hp, hfails.bind f⟩

theorem ReturnsUnless.det {P : Prop} {e : ε} {m : StateT σ (Except ε) α} {Q : α → σ → Prop}
    (h : ReturnsUnless P e m s Q) {a : α} {s' : σ} (hrun : m.run s = .ok (a, s')) : Q a s' := by
  rcases h with h | ⟨-, h⟩
  · exact h.det hrun
  · rw [Fails, hrun] at h
    cases h

/-! ### Fixed runs -/

/-- What a computation returns. -/
def resultOf (m : StateT σ (Except ε) α) (s : σ) : Except ε α := (m.run s).map Prod.fst

/-- The state it leaves. -/
def stateAfter (m : StateT σ (Except ε) α) (s : σ) : σ :=
  match m.run s with
  | .ok (_, s') => s'
  | .error _ => s

theorem run_of_resultOf {m : StateT σ (Except ε) α} {a : α} (h : resultOf m s = .ok a) :
    m.run s = .ok (a, stateAfter m s) := by
  unfold resultOf at h
  unfold stateAfter
  cases hrun : m.run s with
  | error e => simp [hrun, Except.map] at h
  | ok r =>
      rw [hrun] at h
      cases h
      rfl

theorem fails_of_resultOf {m : StateT σ (Except ε) α} {e : ε} (h : resultOf m s = .error e) :
    Fails m s e := by
  unfold resultOf at h
  cases hrun : m.run s with
  | error e' =>
      rw [hrun] at h
      cases h
      exact hrun
  | ok r => simp [hrun, Except.map] at h

end
