import Monotonicity.Proofs.Calculus.Replay

/-!
# Failure leaves no trace

A search for a goal that fails leaves the bindings, the hypotheses, the obligations put off and the
goals in progress exactly as it found them, wherever it started and wherever in it the failure
arose. The continuation is asked for the same only: to leave behind what it found when it refuses a
proof. So the answer to a goal that was not proved is the goal as it was asked, without bindings.
-/

namespace Monotonicity

open Search

/-- A continuation that leaves behind what it found if it does not accept a proof. -/
def Restoring {ρ : Type} (k : Proof → Search ρ) : Prop :=
  ∀ p s why t, (k p).run s = .failure why t → s.Kept t

theorem Restoring.yields {ρ : Type} {k : Proof → Search ρ} (hk : Restoring k) (p : Proof)
    (s : State) : (k p).Yields s fun _ _ => True := by
  unfold Yields Ends
  cases h : (k p).run s with
  | success a t => trivial
  | failure why t => exact (hk p s why t h).grown
  | overflow l => trivial

theorem restoring_fail {ρ : Type} (why : Failure) :
    Restoring fun _ => (Search.fail why : Search ρ) := by
  rintro p s why t ⟨⟩
  exact .refl s

theorem Outcome.exists_failure {α : Type} {o : Outcome α} (h : (o matches .failure _ _) = true) :
    ∃ why t, o = .failure why t := by
  cases o with
  | failure why t => exact ⟨why, t, rfl⟩
  | success a t => cases h
  | overflow l => cases h

theorem resolve_empty (goal : Goal) : goal.resolve .empty = goal := by
  cases goal <;> rfl

namespace Engine

variable {E : Engine}

/-- Every failure of `solve_goal` leaves the state as it was but for the ledger, so that a failed
query returns its goal unchanged and binds nothing. -/
theorem failure_leaves_no_trace (hE : E.theory.Library) :
    (∀ (room : Nat) (ρ : Type) (goal : Goal) (k : Proof → Search ρ), Restoring k →
      ∀ s why t, (Search.solve E.theory room ρ goal k).run s = .failure why t → s.Kept t) ∧
    ∀ goal sol, (E.solve goal).1.result = .ok sol → sol.isFailed = true →
      sol.goal = goal ∧ sol.bindings = [] := by
  constructor
  · intro room ρ goal k hk s why t hrun
    have hsolve : (Search.solve E.theory room ρ goal k).Restores s fun _ _ => True :=
      hE.met_replay room trivial trivial fun p t _ => hk.yields p t
    exact hsolve.of_failure hrun
  · intro goal sol h hfailed
    obtain ⟨bound, -, ⟨p, final, -, rfl⟩ | ⟨why, final, hrun, rfl⟩⟩ := solve_eq_ok h
    · rw [Solution.isFailed_ofProof] at hfailed
      cases hfailed
    · have hkept := (search_restores hE bound).of_failure hrun
      have hsubst : final.subst = .empty := hkept.subst
      refine ⟨?_, ?_⟩
      · rw [Solution.ofFailure, Solution.ofState, hsubst, resolve_empty]
      · rw [Solution.ofFailure, Solution.ofState, hsubst]
        rfl

/-- A search that fills a placeholder for a proof that is then refused, from a state in which
another one is filled, and a query that fails. -/
theorem withMonotone_leaves_no_trace :
    (∃ why t, (Search.solve withMonotone.theory 8 Proof
        (.related (.const "le") (.app "f" [.var 1]) (.app "f" [.var 0]))
        fun _ => Search.fail .openWitness).run
          { withMonotone.start 2 with subst := .bind .empty 1 (.const "a") } = .failure why t ∧
      t.subst = .bind .empty 1 (.const "a") ∧ t.hyps = [] ∧ t.delayed = [] ∧ t.active = [] ∧
      t.depth = 0) ∧
    ∃ sol, (withMonotone.solve (.related (.const "le") (.app "f" [.var 0])
        (.app "f" [.const "a"]))).1.result = .ok sol ∧ sol.isFailed = true ∧
      sol.goal = .related (.const "le") (.app "f" [.var 0]) (.app "f" [.const "a"]) ∧
      sol.bindings = [] := by
  obtain ⟨hsearch, hquery⟩ := failure_leaves_no_trace (E := withMonotone) (library_standard {})
  constructor
  · obtain ⟨why, t, hrun⟩ := Outcome.exists_failure (o := (Search.solve withMonotone.theory 8 Proof
      (.related (.const "le") (.app "f" [.var 1]) (.app "f" [.var 0]))
      fun _ => Search.fail .openWitness).run
        { withMonotone.start 2 with subst := .bind .empty 1 (.const "a") }) (by decide +kernel)
    have hkept := hsearch 8 Proof _ _ (restoring_fail _) _ why t hrun
    exact ⟨why, t, hrun, hkept.subst, hkept.hyps, hkept.delayed, hkept.active, hkept.depth⟩
  · have hfailed : (match (withMonotone.solve (.related (.const "le") (.app "f" [.var 0])
        (.app "f" [.const "a"]))).1.result with
      | .ok sol => sol.isFailed
      | .error _ => false) = true := by
      decide +kernel
    split at hfailed
    · next sol hsol => exact ⟨sol, hsol, hfailed, hquery _ sol hsol hfailed⟩
    · cases hfailed

end Engine

end Monotonicity
