import Monotonicity.Proofs.Substitution.Within
import Monotonicity.Proofs.Term.Built

/-!
# Bindings to terms built from certain heads

The terms that are built from certain heads are a stable class, and all placeholders are in it. So
if terms to be unified and all bound terms are built from these heads, the terms bound afterwards
are, and so are all values.
-/

namespace Monotonicity

namespace Subst

variable {P : String → Nat → Prop} {σ τ : Subst}

/-- All bound terms are built from heads with the property. -/
def Built (P : String → Nat → Prop) (σ : Subst) : Prop := ∀ i t, σ.get? i = some t → t.Built P

theorem built_empty : Subst.empty.Built P := by
  intro i t h
  simp at h

/-- Every placeholder is in the class, so all bound terms are. -/
theorem within_built : σ.Within (Term.Built P) ↔ σ.Built P :=
  ⟨fun h i t => h i t (.var i), fun h i t _ => h i t⟩

theorem Built.resolve {t : Term} (hσ : σ.Built P) (ht : t.Built P) : (σ.resolve t).Built P :=
  (within_built.2 hσ).resolve Term.stable_built ht

/-- What is bound after terms were unified is built from the same heads as these terms and what was
bound before. -/
theorem Unified.built {pairs : List (Term × Term)} (h : Unified σ pairs τ) (hσ : σ.Built P)
    (hpairs : ∀ a b, (a, b) ∈ pairs → a.Built P ∧ b.Built P) : τ.Built P := by
  induction h with
  | nil => exact hσ
  | @cons σ τ υ a b pairs h _ ih =>
    obtain ⟨ha, hb⟩ := hpairs a b List.mem_cons_self
    have hτ := (within_built.2 hσ).unify Term.stable_built ha hb h
    exact ih (within_built.1 hτ.within) fun a b hab => hpairs a b (List.mem_cons_of_mem _ hab)

end Subst

end Monotonicity
