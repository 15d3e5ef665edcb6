/-
Module: Jcl.Proofs.Machine
Layer: Proofs
Purpose: The rules for `assert` inside stateful code.
Imports: Jcl.Lib.Returns, Jcl.Machine
Trusted boundary: none (fully proved)
Main exports: returns_assert, fails_assert
-/
import Jcl.Lib.Returns
import Jcl.Machine

namespace Jcl

/-- An assertion only has to hold in builds that check it. -/
@[simp] theorem returns_assert [Build] {σ : Type} {s : σ} {cond : Bool} {Q : Unit → σ → Prop} :
    Returns (liftM (assert cond) : StateT σ (Except Fault) Unit) s Q ↔
      (Build.asserts = true → cond = true) ∧ Q () s := by
  have hunit : (∃ u : Unit, Q u s) ↔ Q () s := ⟨fun ⟨(), h⟩ => h, fun h => ⟨(), h⟩⟩
  rw [returns_lift]
  cases hb : Build.asserts <;> cases cond <;> simp [assert, hb, hunit]

theorem fails_assert [Build] {σ : Type} {s : σ} (hasserts : Build.asserts = true) :
    Fails (liftM (assert false) : StateT σ (Except Fault) Unit) s .assertion := by
  rw [assert, hasserts]
  rfl

end Jcl
