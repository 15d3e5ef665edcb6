/-
Module: Jcl.Lib.Keeps
Layer: Library
Purpose: Partial specifications of code that does not touch a part of the state: whatever it returns, what is observed
  of the state is the same before and after. The rules follow the structure of `do` blocks.
Imports: Jcl.Lib.Returns
Trusted boundary: none (fully proved)
Main exports: Keeps, Keeps.bind, Keeps.modify, Keeps.returns
-/
import Jcl.Lib.Returns

section

variable {σ ε α β γ : Type} {f : σ → γ} {m n : StateT σ (Except ε) α} {s : σ}

/-- `m` leaves what `f` observes as it was, if it returns. -/
def Keeps (f : σ → γ) (m : StateT σ (Except ε) α) : Prop := ∀ s a s', m.run s = .ok (a, s') → f s' = f s

theorem Keeps.pure {a : α} : Keeps f (Pure.pure a : StateT σ (Except ε) α) := by
  intro s b s' hrun
  cases hrun
  rfl

theorem Keeps.get : Keeps f (MonadState.get : StateT σ (Except ε) σ) := by
  intro s b s' hrun
  cases hrun
  rfl

theorem Keeps.throw {e : ε} : Keeps f (MonadExcept.throw e : StateT σ (Except ε) α) := by
  intro s b s' hrun
  cases hrun

theorem Keeps.modify {g : σ → σ} (h : ∀ s, f (g s) = f s) :
    Keeps f (modify g : StateT σ (Except ε) PUnit) := by
  intro s b s' hrun
  cases hrun
  exact h s

theorem Keeps.lift {e : Except ε α} : Keeps f (liftM e : StateT σ (Except ε) α) := by
  intro s b s' hrun
  have hret : Returns (liftM e : StateT σ (Except ε) α) s fun _ s₁ => s₁ = s' := ⟨b, s', hrun, rfl⟩
  obtain ⟨-, -, rfl⟩ := returns_lift.1 hret
  rfl

theorem Keeps.bind {g : α → StateT σ (Except ε) β} (hm : Keeps f m) (hg : ∀ a, Keeps f (g a)) : Keeps f (m >>= g) := by
  intro s b s' hrun
  have hret : Returns (m >>= g) s fun _ s₁ => s₁ = s' := ⟨b, s', hrun, rfl⟩
  obtain ⟨a, s₁, hfirst, c, s₂, hsecond, rfl⟩ := returns_bind.1 hret
  exact (hg a s₁ c s₂ hsecond).trans (hm s a s₁ hfirst)

theorem Keeps.ite {c : Prop} [Decidable c] (hm : Keeps f m) (hn : Keeps f n) : Keeps f (if c then m else n) := by
  split
  · exact hm
  · exact hn

/-- A specification says in addition what is kept. -/
theorem Keeps.returns {Q : α → σ → Prop} (h : Keeps f m) (hret : Returns m s Q) :
    Returns m s fun a s' => f s' = f s ∧ Q a s' := by
  obtain ⟨a, s', hrun, hQ⟩ := hret
  exact ⟨a, s', hrun, h s a s' hrun, hQ⟩

end
