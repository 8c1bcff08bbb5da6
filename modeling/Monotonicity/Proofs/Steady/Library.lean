import Monotonicity.Proofs.Calculus.Replay
import Monotonicity.Proofs.Steady.Candidate
import Monotonicity.Proofs.Steady.CaseSplit
import Monotonicity.Proofs.Steady.Inclusion
import Monotonicity.Proofs.Steady.Introduction

/-!
# The solver of a library under observation

The methods of the standard rules and of the relators' rules are steady. So the solver of a theory
that has no other rules may be put under observation, and what is closed under courses holds of all
proofs that it hands on.
-/

namespace Monotonicity

open Search

variable {T : Theory} {ρ : Type} {fuel : Nat} {F check : Handover} {s : State} {goal : Goal}

/-- All methods of a library's rules are steady. -/
theorem Theory.Library.steady (h : T.Library) (hle : T.limits.fuel ≤ fuel) :
    ∀ rule ∈ T.rules, Steady T fuel F rule.method := by
  intro rule hrule
  rcases h rule hrule with hstandard | ⟨r, rfl⟩
  · simp only [Rule.standard, List.mem_cons, List.not_mem_nil, or_false] at hstandard
    rcases hstandard with rfl | rfl | rfl | rfl | rfl | rfl | rfl | rfl | rfl | rfl | rfl | rfl |
      rfl | rfl | rfl | rfl | rfl | rfl
    · exact steady_top
    · exact steady_eqRefl
    · exact steady_flipIntro
    · exact steady_arrowIntro
    · exact steady_dependentIntro
    · exact steady_casesReduce
    · exact steady_subrelRefl
    · exact steady_subrelExtremes
    · exact steady_subrelFact hle
    · exact steady_subrelStructural
    · exact steady_subrelTrans hle
    · exact steady_destruct
    · exact steady_monotone hle .left
    · exact steady_monotone hle .right
    · exact steady_eqCongruence
    · exact steady_eqUnify
    · exact steady_reflPlaceholder
    · exact steady_deferUnsolved
  · exact steady_relatorIntro

/-- The solver of a library, with its own steps, and the same under observation. -/
theorem Theory.Library.paired (h : T.Library) (hF : F.Closed T)
    (hcheck : ∀ s goal p t, s.subst.Acyclic → s.Grown t → F s goal p t → check s goal p t)
    (alarm : (ρ : Type) → Search ρ) (room : Nat) (w : Place) :
    Paired T T.limits.fuel F w (solve T room) (solveWatched T check alarm room w) :=
  solveWatched_paired le_rfl (h.steady le_rfl) hF hcheck alarm room w

/-- What is closed under courses is known of the proofs handed on. -/
theorem Theory.Library.yields (h : T.Library) (hF : F.Closed T) {room : Nat}
    {k : Proof → Search ρ} {S : ρ → State → Prop} (hacyclic : s.subst.Acyclic)
    (hk : ∀ p t, s.Grown t → F s goal p t → (k p).Yields t S) :
    (solve T room ρ goal k).Yields s S := by
  have hpaired := h.paired hF (fun _ _ _ _ _ _ hp => hp) (fun _ => exhausted) room s.place
  have hfollows : ∀ p t, s.Grown t → F s goal p t →
      Follows T T.limits.fuel (k p) (under s.place.hyps (k p)) t t.Grown S :=
    fun p t ht hp => Follows.under_self ht.hyps (.self (hk p t ht hp))
  exact (hpaired s.at_place hacyclic hfollows).ends

end Monotonicity
