import Monotonicity.Proofs.Steady.Library
import Monotonicity.Proofs.Steady.Transport

/-!
# Queries under observation

A query may be answered by any prover instead of the solver, in particular by the solver under
observation. With the rules of a library the answer is then the same, whatever is done where a test
fails. So a test that is known of all proofs handed on holds at every call of every run of the
solver.
-/

namespace Monotonicity

open Search

/-- A test of a result that is passed only if there is one. -/
theorem exists_ok_of_any {ε α : Type} {r : Except ε α} {test : α → Bool}
    (h : r.toOption.any test = true) : ∃ a, r = .ok a ∧ test a = true := by
  cases r with
  | error e => cases h
  | ok a => exact ⟨a, rfl, h⟩

namespace Engine

variable {E : Engine} {α β : Type} {F check : Handover} {alarm : (ρ : Type) → Search ρ}

/-- Proves a goal by a prover. -/
def solveBy (E : Engine) (prove : Prover) (goal : Goal) : Answer Solution × Engine :=
  E.query goal.terms (fun _ => prove Proof goal pure) (Solution.ofProof goal)
    (Solution.ofFailure goal)

/-- Transports one fact along another by a prover. -/
def transportBy (E : Engine) (prove : Prover) (lifted edge : Nat) (c : Computation) :
    Answer (Except Failure Transported) × Engine :=
  match E.theory.registry.facts[lifted]?, E.theory.registry.facts[edge]? with
  | some f, some e =>
    E.query [c.term, c.value]
      (fun bound => Search.transport E.theory prove bound lifted edge f e c)
      (fun _ t _ => .ok t) (fun _ why _ => .error why)
  | none, _ => (⟨.ok (.error (.unknownFact lifted)), []⟩, E)
  | some _, none => (⟨.ok (.error (.unknownFact edge)), []⟩, E)

theorem solveBy_solve (goal : Goal) :
    E.solveBy (Search.solve E.theory E.theory.limits.maxDepth) goal = E.solve goal := rfl

theorem transportBy_solve (lifted edge : Nat) (c : Computation) :
    E.transportBy (Search.solve E.theory E.theory.limits.maxDepth) lifted edge c =
      E.transport lifted edge c := rfl

/-- The solver of an engine under observation, as a query starts it. -/
noncomputable def observed (E : Engine) (check : Handover) (alarm : (ρ : Type) → Search ρ) :
    Prover :=
  solveWatched E.theory check alarm E.theory.limits.maxDepth ⟨[], [], 0⟩

/-- An answer does not depend on the scope in which a search succeeded. -/
theorem query_congr {terms : List Term} {search search' : Nat → Search α}
    {accept : Nat → α → State → β} {refuse : Nat → Failure → State → β}
    (haccept : ∀ bound a s, accept bound a s.bare = accept bound a s)
    (h : ∀ bound, schematic? terms = some bound →
      ((search' bound).run (E.start bound)).bare = ((search bound).run (E.start bound)).bare) :
    E.query terms search' accept refuse = E.query terms search accept refuse := by
  unfold query
  cases hterms : schematic? terms with
  | none => rfl
  | some bound =>
    have hbound := h bound hterms
    cases hrun : (search bound).run (E.start bound) with
    | success a t =>
      rw [hrun] at hbound
      obtain ⟨u, hrun', hu⟩ := Outcome.bare_eq_success hbound
      have hledger : u.ledger = t.ledger := by simpa [State.bare] using congrArg State.ledger hu
      have hvalue : accept bound a u = accept bound a t := by
        rw [← haccept, hu, haccept]
      simp [hrun, hrun', hledger, hvalue]
    | failure why t =>
      rw [hrun] at hbound
      simp [hrun, Outcome.bare_eq_failure hbound]
    | overflow l =>
      rw [hrun] at hbound
      simp [hrun, Outcome.bare_eq_overflow hbound]

/-- A goal is solved in the same way by the solver under observation. -/
theorem solveBy_observed (hE : E.theory.Library) (hF : F.Closed E.theory)
    (hcheck : ∀ s goal p t, s.subst.Acyclic → s.Grown t → F s goal p t → check s goal p t)
    (goal : Goal) : E.solveBy (E.observed check alarm) goal = E.solve goal := by
  rw [← solveBy_solve]
  refine query_congr (fun _ _ _ => rfl) fun bound _ => ?_
  have hpaired := hE.paired hF hcheck alarm E.theory.limits.maxDepth (E.start bound).place
  have haccept : ∀ p t, (E.start bound).Grown t → F (E.start bound) goal p t →
      Follows E.theory E.theory.limits.fuel (pure p) (under (E.start bound).place.hyps (pure p)) t
        t.Grown fun (_ : Proof) _ => True :=
    fun p t ht _ => Follows.under_self ht.hyps (.self trivial)
  have hfollows := hpaired (E.start bound).at_place Subst.acyclic_empty haccept
  exact hfollows.bare_eq

/-- A fact is transported in the same way by the solver under observation. -/
theorem transportBy_observed (hE : E.theory.Library) (hF : F.Closed E.theory)
    (hcheck : ∀ s goal p t, s.subst.Acyclic → s.Grown t → F s goal p t → check s goal p t)
    (lifted edge : Nat) (c : Computation) :
    E.transportBy (E.observed check alarm) lifted edge c = E.transport lifted edge c := by
  rw [← transportBy_solve]
  unfold transportBy
  cases E.theory.registry.facts[lifted]? with
  | none => rfl
  | some f =>
    cases E.theory.registry.facts[edge]? with
    | none => rfl
    | some e =>
      refine query_congr (fun _ _ _ => rfl) fun bound _ => ?_
      have hpaired := hE.paired hF hcheck alarm E.theory.limits.maxDepth (E.start bound).place
      have hfollows : Follows E.theory E.theory.limits.fuel
          (Search.transport E.theory (Search.solve E.theory E.theory.limits.maxDepth) bound lifted
            edge f e c)
          (Search.transport E.theory (E.observed check alarm) bound lifted edge f e c)
          (E.start bound) (E.start bound).Grown fun _ _ => True :=
        transport_follows hpaired rfl Subst.acyclic_empty fun _ _ _ _ => trivial
      exact hfollows.bare_eq

end Engine

end Monotonicity
