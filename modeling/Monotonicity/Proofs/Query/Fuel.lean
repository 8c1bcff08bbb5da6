import Monotonicity.Proofs.Query.Observation

/-!
# More steps

A query with more steps at its disposal gives the same answer, unless the one with fewer failed when
its steps were used up. Whether that was so is seen from the number of steps made, and not from the
cause of the failure: a rule that fails with the last step passes its own cause on, and the rules
after it are not tried. A proof that was found is found again.
-/

namespace Monotonicity

open Search

namespace Search

variable {T : Theory} {ρ : Type} {fuel : Nat} {k k' : Proof → Search ρ} {s : State}

/-- At every call, both solvers go in lockstep with the solver under observation that has the larger
number of steps. The second continuation need not be like the first one where that fails with its
steps used up. -/
theorem solve_agrees (hT : T.Library) (hle : T.limits.fuel ≤ fuel) (hs : s.subst.Acyclic)
    (hk : ∀ p t, s.Grown t → (k p).Yields t fun _ _ => True)
    (hk' : ∀ p t, s.Grown t → (k' p).Yields t fun _ _ => True)
    (hagrees : ∀ p t, s.Grown t → ((k p).run t).Agrees T fuel ((k' p).run t)) (room : Nat)
    (goal : Goal) :
    ((solve T room ρ goal k).run s).Agrees T fuel
      ((solve (T.refuel fuel) room ρ goal k').run s) := by
  let watched : Search ρ := solveWatched (T.refuel fuel) (fun _ _ _ _ => True)
    (fun _ => exhausted) room s.place ρ goal k'
  have hfewer : Follows T fuel (solve T room ρ goal k) watched s s.Grown fun _ _ => True :=
    solveWatched_paired hle (hT.steady hle) closed_true (fun _ _ _ _ _ _ h => h) _ _ _
      s.at_place hs fun p t ht _ => Follows.under_self ht.hyps ⟨hk p t ht, hagrees p t ht⟩
  have hmore : Follows (T.refuel fuel) fuel (solve (T.refuel fuel) room ρ goal k') watched s
      s.Grown fun _ _ => True :=
    Theory.Library.paired (T := T.refuel fuel) hT closed_true (fun _ _ _ _ _ _ h => h) _ _ _
      s.at_place hs fun p t ht _ => Follows.under_self ht.hyps (.self (hk' p t ht))
  have hbare : (watched.run s).bare = ((solve (T.refuel fuel) room ρ goal k').run s).bare :=
    hmore.bare_eq
  rcases hfewer.agrees with hsame | hcut
  · exact .inl (hbare.symm.trans hsame)
  · exact .inr hcut

end Search

namespace Engine

variable {E : Engine} {goal : Goal} {sol : Solution} {fuel : Nat}

/-- The engine with another limit on the steps. -/
def refuel (E : Engine) (fuel : Nat) : Engine := { E with theory := E.theory.refuel fuel }

theorem search_refuel (hE : E.theory.Library) (hle : E.theory.limits.fuel ≤ fuel) (goal : Goal)
    (bound : Nat) :
    ((E.search goal).run (E.start bound)).Agrees E.theory fuel
      (((E.refuel fuel).search goal).run (E.start bound)) := by
  have haccept : ∀ (p : Proof) t, (E.start bound).Grown t →
      (pure p : Search Proof).Yields t fun _ _ => True := fun _ _ _ => trivial
  exact solve_agrees hE hle Subst.acyclic_empty haccept haccept (fun _ _ _ => .refl _) _ goal

theorem query_refuel {α β : Type} {terms : List Term} {search : Nat → Search α}
    {accept : Nat → α → State → β} {refuse : Nat → Failure → State → β} :
    ((E.refuel fuel).query terms search accept refuse).1 =
      (E.query terms search accept refuse).1 := by
  unfold query
  cases schematic? terms with
  | none => rfl
  | some bound => rfl

/-- The answer is the same with more steps, unless it is a failure with the steps used up. -/
theorem solve_refuel (hE : E.theory.Library) (hle : E.theory.limits.fuel ≤ fuel)
    (h : ∀ sol, (E.solve goal).1.result = .ok sol → sol.isFailed = true →
      sol.stats.steps < E.theory.limits.fuel) :
    ((E.refuel fuel).solve goal).1 = (E.solve goal).1 := by
  unfold solve
  rw [query_refuel]
  congr 1
  refine query_congr (fun _ _ _ => rfl) fun bound hbound => ?_
  rcases search_refuel hE hle goal bound with hsame | ⟨why, final, hrun, -, hspent⟩
  · exact hsame
  · -- a failure with the steps used up is excluded by the number of steps made
    have hanswer : (E.solve goal).1.result = .ok (.ofFailure goal bound why final) := by
      simp [solve, query, hbound, hrun]
    have hsteps := h _ hanswer rfl
    have hfuel : E.theory.limits.fuel ≤ final.ledger.stats.steps := by
      simpa [Theory.spent] using hspent
    simp only [Solution.ofFailure, Solution.ofState] at hsteps
    omega

/-- An answer that was found before the steps were used up, in particular a failure for whatever
cause, is the answer with more of them too. -/
theorem same_with_more_steps (hE : E.theory.Library) (h : (E.solve goal).1.result = .ok sol)
    (hsteps : sol.stats.steps < E.theory.limits.fuel) (hle : E.theory.limits.fuel ≤ fuel) :
    ((E.refuel fuel).solve goal).1 = (E.solve goal).1 := by
  refine solve_refuel hE hle fun sol' h' _ => ?_
  rw [h] at h'
  cases h'
  exact hsteps

/-- No `f ?0` is below `f a`, and twice as many steps do not change that. -/
theorem withMonotone_same_with_more_steps :
    ∃ sol, (withMonotone.solve (.related (.const "le") (.app "f" [.var 0])
        (.app "f" [.const "a"]))).1.result = .ok sol ∧ sol.isFailed = true ∧
      ((withMonotone.refuel 200000).solve (.related (.const "le") (.app "f" [.var 0])
        (.app "f" [.const "a"]))).1.result = .ok sol := by
  have hfailed : (withMonotone.solve (.related (.const "le") (.app "f" [.var 0])
      (.app "f" [.const "a"]))).1.result.toOption.any
        (fun sol => sol.isFailed && decide (sol.stats.steps < 100000)) = true := by
    decide +kernel
  obtain ⟨sol, hsol, hfailed⟩ := exists_ok_of_any hfailed
  simp only [Bool.and_eq_true, decide_eq_true_eq] at hfailed
  obtain ⟨hfailed, hsteps⟩ := hfailed
  refine ⟨sol, hsol, hfailed, ?_⟩
  rw [same_with_more_steps (library_standard {}) hsol hsteps (by decide), hsol]

/-- A proof that was found, perhaps with obligations put off, is the one found with more steps too,
with all that is said along with it. At no call of the solver can anything still succeed that was not
to be tried any more: what follows a proof may be something else with more steps wherever it failed
with its steps used up, and every success is the same. -/
theorem proof_with_more_steps (hE : E.theory.Library) (hle : E.theory.limits.fuel ≤ fuel) :
    (∀ goal sol, (E.solve goal).1.result = .ok sol → sol.holds = true →
      ((E.refuel fuel).solve goal).1 = (E.solve goal).1) ∧
    ∀ (room : Nat) (ρ : Type) (goal : Goal) (k k' : Proof → Search ρ) (s t : State) (a : ρ),
      s.subst.Acyclic → (∀ p t, s.Grown t → (k p).Yields t fun _ _ => True) →
      (∀ p t, s.Grown t → (k' p).Yields t fun _ _ => True) →
      (∀ p t, s.Grown t → ((k p).run t).Agrees E.theory fuel ((k' p).run t)) →
      (Search.solve E.theory room ρ goal k).run s = .success a t →
      ∃ u, (Search.solve (E.theory.refuel fuel) room ρ goal k').run s = .success a u ∧
        u.bare = t.bare := by
  refine ⟨fun goal sol h hholds => solve_refuel hE hle fun sol' h' hfailed => ?_, ?_⟩
  · rw [h] at h'
    cases h'
    simp [Solution.holds, hfailed] at hholds
  · intro room ρ goal k k' s t a hs hk hk' hagrees hrun
    rcases solve_agrees hE hle hs hk hk' hagrees room goal with hsame | ⟨why, u, hfailed, -⟩
    · rw [hrun] at hsame
      exact Outcome.bare_eq_success hsame
    · rw [hrun] at hfailed
      cases hfailed

/-- For `le (f a) (f ?0)` four steps are just enough. With more of them the solution is the same, and
so is the proof that the search inside hands on. -/
theorem withMonotone_proof_with_more_steps :
    (∃ sol, ((withMonotone.refuel 4).solve (.related (.const "le") (.app "f" [.const "a"])
        (.app "f" [.var 0]))).1.result = .ok sol ∧ sol.isSolved = true ∧ sol.stats.steps = 4 ∧
      (((withMonotone.refuel 4).refuel 100000).solve (.related (.const "le")
        (.app "f" [.const "a"]) (.app "f" [.var 0]))).1.result = .ok sol) ∧
    ∃ s p t u, ((withMonotone.refuel 4).search (.related (.const "le") (.app "f" [.const "a"])
        (.app "f" [.var 0]))).run s = .success p t ∧
      (Search.solve ((withMonotone.refuel 4).theory.refuel 100000)
        (withMonotone.refuel 4).theory.limits.maxDepth Proof (.related (.const "le")
        (.app "f" [.const "a"]) (.app "f" [.var 0])) pure).run s = .success p u ∧
      u.bare = t.bare := by
  have hlibrary : (withMonotone.refuel 4).theory.Library := library_standard {}
  have hmore : (withMonotone.refuel 4).theory.limits.fuel ≤ 100000 := by decide
  obtain ⟨hanswer, hcall⟩ := proof_with_more_steps hlibrary hmore
  have hsolved : ((withMonotone.refuel 4).solve (.related (.const "le")
      (.app "f" [.const "a"]) (.app "f" [.var 0]))).1.result.toOption.any
        (fun sol => sol.isSolved && sol.holds && decide (sol.stats.steps = 4)) = true := by
    decide +kernel
  obtain ⟨sol, hsol, hsolved⟩ := exists_ok_of_any hsolved
  simp only [Bool.and_eq_true, decide_eq_true_eq] at hsolved
  obtain ⟨⟨hsolved, hholds⟩, hsteps⟩ := hsolved
  refine ⟨⟨sol, hsol, hsolved, hsteps, by rw [hanswer _ sol hsol hholds, hsol]⟩, ?_⟩
  obtain ⟨bound, -, ⟨p, t, hrun, -⟩ | ⟨why, t, -, rfl⟩⟩ := solve_eq_ok hsol
  · obtain ⟨u, hu, hbare⟩ := hcall _ Proof _ pure pure _ t p Subst.acyclic_empty
      (fun _ _ _ => trivial) (fun _ _ _ => trivial) (fun _ _ _ => .refl _) hrun
    exact ⟨_, p, t, u, hrun, hu, hbare⟩
  · cases hsolved

/-- An engine that may make one step and was told that `a` and `b` are equal. -/
def withOneStep : Engine :=
  let told : Option Registry := do
    let (_, r) ← Registry.addFact? {} .equality (.const "a") (.const "b") (.const "ab")
    return r
  { Engine.new {} with theory := { Theory.standard { fuel := 1 } with registry := told.getD {} } }

/-- The one step is spent on reflexivity. That no rule applies is the answer then, and not that the
steps ran out; with more of them the fact is found. -/
theorem withOneStep_hides_fact :
    (∃ sol why, (withOneStep.solve (.related .equality (.const "a") (.const "b"))).1.result =
        .ok sol ∧ sol.failure? = some why ∧ why.isExhausted = false) ∧
    ∃ sol, ((withOneStep.refuel 100).solve
      (.related .equality (.const "a") (.const "b"))).1.result = .ok sol ∧ sol.isSolved = true := by
  constructor
  · have hfailed : (withOneStep.solve
        (.related .equality (.const "a") (.const "b"))).1.result.toOption.any
          (fun sol => sol.failure?.any fun why => !why.isExhausted) = true := by
      decide +kernel
    obtain ⟨sol, hsol, hfailed⟩ := exists_ok_of_any hfailed
    obtain ⟨why, hwhy, hcause⟩ := (Option.any_eq_true _ _).1 hfailed
    exact ⟨sol, why, hsol, hwhy, by simpa using hcause⟩
  · have hsolved : ((withOneStep.refuel 100).solve
        (.related .equality (.const "a") (.const "b"))).1.result.toOption.any
          Solution.isSolved = true := by
      decide +kernel
    exact exists_ok_of_any hsolved

end Engine

end Monotonicity
