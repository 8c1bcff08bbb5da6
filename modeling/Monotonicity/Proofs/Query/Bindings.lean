import Monotonicity.Proofs.Query.Escape
import Monotonicity.Proofs.Substitution.Reached

/-!
# The answer fits the question

The bindings in which a search ends are a trail: what a placeholder is bound to may hold others that
are bound as well, of the caller or of the search, earlier or later. An answer lists the values of
the caller's placeholders with all that followed. Putting them into the caller's goal, all at once,
gives the goal of the answer. This needs that the trail has no cycle, and that of two placeholders
the one with the larger index is bound. Both hold along every course of a rule.
-/

namespace Monotonicity

open Search

variable {T : Theory} {s t : State} {goal : Goal} {ps : List Proof}

/-! ## Along courses -/

theorem Subst.Orderly.unify {σ τ : Subst} {a b : Term} (hσ : σ.Orderly)
    (h : σ.unify a b = some τ) : τ.Orderly :=
  ((hσ.run_of_unify h).orderly hσ).1

/-- A proof is handed on with the bindings in order if they were so when its goal was taken up. -/
def keepingOrder : Handover := fun s _ _ t => s.subst.Orderly → t.subst.Orderly

theorem Course.orderly (h : Course T keepingOrder s goal ps t) (hs : s.subst.Orderly) :
    t.subst.Orderly := by
  induction h with
  | start => exact hs
  | keep before hk ih => exact hk.subst ▸ ih
  | unify before ha hb hunify ih => exact ih.unify hunify
  | leaf before p hp hname ih => exact ih
  | defer before x ih => exact ih
  | prove before further g hfurther hg hgrown hp ih => exact hp ih

theorem closed_keepingOrder : keepingOrder.Closed T := by
  intro s s₁ t goal rule ps _ _ hk hcourse hs
  have hstart : s₁.subst.Orderly := hk.subst ▸ hs
  exact hcourse.orderly hstart

/-! ## The values of the caller's placeholders -/

/-- A value that is a placeholder has a smaller index than what it is the value of. -/
theorem Subst.Orderly.value_lt {σ : Subst} (hσ : σ.Orderly) {i j : Nat} {u : Term}
    (hi : σ.get? i = some u) (hvalue : σ.value i = .var j) : j < i := by
  induction i using hσ.acyclic.wf.induction generalizing u with
  | _ i ih =>
    rw [hσ.acyclic.value_of_bound hi, hσ.acyclic.resolve_eq_subst] at hvalue
    cases u with
    | app head args => simp at hvalue
    | cases scrutinee arms => simp at hvalue
    | var k =>
      have hki : k < i := hσ.down i k hi
      have hk : σ.value k = .var j := hvalue
      cases hnext : σ.get? k with
      | none =>
        rw [Subst.value_of_unbound hnext] at hk
        cases hk
        exact hki
      | some w => exact (ih k ⟨.var k, hi, by simp⟩ hnext hk).trans hki

theorem pairwise_insertIndex {i : Nat} {indices : List Nat} (h : indices.Pairwise (· < ·)) :
    (Solution.insertIndex i indices).Pairwise (· < ·) := by
  induction indices with
  | nil => simp [Solution.insertIndex]
  | cons j rest ih =>
    obtain ⟨hj, hrest⟩ := List.pairwise_cons.1 h
    unfold Solution.insertIndex
    split
    · next hij =>
      refine List.pairwise_cons.2 ⟨fun k hk => ?_, h⟩
      rcases List.mem_cons.1 hk with rfl | hk
      · exact hij
      · exact hij.trans (hj k hk)
    · next hji =>
      split
      · exact h
      · next hne =>
        refine List.pairwise_cons.2 ⟨fun k hk => ?_, ih hrest⟩
        rcases mem_insertIndex.1 hk with rfl | hk
        · omega
        · exact hj k hk

theorem pairwise_valuesBelow (σ : Subst) (bound : Nat) :
    ((Solution.valuesBelow σ bound).map Prod.fst).Pairwise (· < ·) := by
  unfold Solution.valuesBelow
  simp only [List.map_map, Function.comp_def, List.map_id']
  induction (σ.trail.map (·.1)).filter (· < bound) with
  | nil => simp
  | cons i rest ih => exact pairwise_insertIndex ih

/-- Looking a caller's placeholder up in the list gives its value. -/
theorem lookup_valuesBelow {σ : Subst} {bound i : Nat} (hi : i < bound) :
    ((Solution.valuesBelow σ bound).lookup i).getD (.var i) = σ.value i := by
  cases hlookup : (Solution.valuesBelow σ bound).lookup i with
  | some v =>
    obtain ⟨before, after, hlist, -⟩ := List.lookup_eq_some_iff.1 hlookup
    have hmem : (i, v) ∈ Solution.valuesBelow σ bound := by simp [hlist]
    exact (mem_valuesBelow.1 hmem).2.2
  | none =>
    cases hbound : σ.get? i with
    | none => exact (Subst.value_of_unbound hbound).symm
    | some u =>
      have hmem : (i, σ.value i) ∈ Solution.valuesBelow σ bound :=
        mem_valuesBelow.2 ⟨hi, ⟨u, hbound⟩, rfl⟩
      simpa using List.lookup_eq_none_iff.1 hlookup _ hmem

/-! ## Answers -/

/-- The answer's bindings fit the goal that was asked, and its own goal. -/
structure Solution.Fits (sol : Solution) (goal : Goal) : Prop where
  /-- The bindings, put in for the goal's placeholders all at once, give the goal of the answer. -/
  goal : sol.goal = goal.map (Term.subst fun i => (sol.binding? i).getD (.var i))
  rising : (sol.bindings.map Prod.fst).Pairwise (· < ·)
  gone_from_values : ∀ i v, (i, v) ∈ sol.bindings → ∀ j w, (j, w) ∈ sol.bindings → i ∉ w.vars
  gone_from_goal : ∀ i v, (i, v) ∈ sol.bindings → ∀ u ∈ sol.goal.terms, i ∉ u.vars
  down : ∀ i j, (i, .var j) ∈ sol.bindings → j < i

theorem Goal.map_congr {f g : Term → Term} {goal : Goal} (h : ∀ u ∈ goal.terms, f u = g u) :
    goal.map f = goal.map g := by
  cases goal <;> simp_all [Goal.map, Goal.terms]

theorem Solution.fits_ofState (hσ : s.subst.Orderly) {bound : Nat}
    (hbound : schematic? goal.terms = some bound) (verdict : Verdict) :
    (ofState goal bound s verdict).Fits goal where
  goal := by
    refine Goal.map_congr fun u hu => ?_
    rw [hσ.acyclic.resolve_eq_subst]
    refine Term.subst_congr fun i hi => ?_
    exact (lookup_valuesBelow (lt_of_schematic? hbound hu hi)).symm
  rising := pairwise_valuesBelow s.subst bound
  gone_from_values i v hi j w hj hmem := by
    obtain ⟨-, ⟨u, hu⟩, -⟩ := mem_valuesBelow.1 hi
    obtain ⟨-, -, rfl⟩ := mem_valuesBelow.1 hj
    cases hu.symm.trans (hσ.acyclic.leaves_value j i hmem)
  gone_from_goal i v hi u hu hmem := by
    obtain ⟨-, ⟨w, hw⟩, -⟩ := mem_valuesBelow.1 hi
    cases hw.symm.trans (Goal.left_resolve hσ.acyclic goal u hu i hmem)
  down i j hi := by
    obtain ⟨-, ⟨u, hu⟩, hvalue⟩ := mem_valuesBelow.1 hi
    exact hσ.value_lt hu hvalue.symm

namespace Engine

variable {E : Engine}

theorem search_orderly (hE : E.theory.Library) (goal : Goal) (bound : Nat) :
    (E.search goal).Yields (E.start bound) fun _ final => final.subst.Orderly :=
  hE.yields closed_keepingOrder Subst.acyclic_empty fun _ _ _ hp => hp Subst.orderly_empty

/-- However `solve` ends, the answer that `finish` makes fits the question: its goal is the caller's
goal with the bindings put in for the placeholders, all at once. They are listed by rising index,
none of the placeholders listed is left in a value or in the goal, and one whose value is a
placeholder comes after it. The placeholders listed are those of the caller's that are bound in the
end. -/
theorem answer_fits_question (hE : E.theory.Library) (goal : Goal) (sol : Solution)
    (h : (E.solve goal).1.result = .ok sol) :
    sol.Fits goal ∧
    ∃ bound final, schematic? goal.terms = some bound ∧
      ((∃ p, (E.search goal).run (E.start bound) = .success p final) ∨
        ∃ why, (E.search goal).run (E.start bound) = .failure why final) ∧
      ∀ i v, (i, v) ∈ sol.bindings ↔
        i < bound ∧ final.subst.isBound i = true ∧ v = final.subst.resolve (.var i) := by
  have hlisted : ∀ (final : Subst) bound i v, (i, v) ∈ Solution.valuesBelow final bound ↔
      i < bound ∧ final.isBound i = true ∧ v = final.resolve (.var i) := by
    intro final bound i v
    rw [mem_valuesBelow, Subst.isBound, Option.isSome_iff_exists]
    rfl
  obtain ⟨bound, hbound, ⟨p, final, hrun, rfl⟩ | ⟨why, final, hrun, rfl⟩⟩ := solve_eq_ok h
  · have horderly := (search_orderly hE goal bound).of_success hrun
    exact ⟨Solution.fits_ofState horderly hbound _, bound, final, hbound, .inl ⟨p, hrun⟩,
      hlisted final.subst bound⟩
  · have hkept := (search_restores hE bound).of_failure hrun
    have horderly : final.subst.Orderly := hkept.subst ▸ Subst.orderly_empty
    exact ⟨Solution.fits_ofState horderly hbound _, bound, final, hbound, .inr ⟨why, hrun⟩,
      hlisted final.subst bound⟩

/-- That `R` relates `h ?0 ?1` and `c ?2`. -/
def twoOnDiagonalGoal : Goal :=
  .related (.const "R") (.app "h" [.var 0, .var 1]) (.app "c" [.var 2])

/-- The fact `R (h ?0 ?0) (c ?1)` is used with placeholders of the search, and in the end the second
of the caller's placeholders stands for the first. -/
theorem withDiagonal_answer_fits :
    ∃ sol, (withDiagonal.solve twoOnDiagonalGoal).1.result = .ok sol ∧
      sol.bindings = [(1, .var 0)] ∧
      sol.goal = .related (.const "R") (.app "h" [.var 0, .var 0]) (.app "c" [.var 2]) ∧
      sol.Fits twoOnDiagonalGoal := by
  have hsolved : (withDiagonal.solve twoOnDiagonalGoal).1.result.toOption.any
      (fun sol => decide (sol.bindings = [(1, .var 0)]) &&
        decide (sol.goal =
          .related (.const "R") (.app "h" [.var 0, .var 0]) (.app "c" [.var 2]))) = true := by
    decide +kernel
  obtain ⟨sol, hsol, hsolved⟩ := exists_ok_of_any hsolved
  simp only [Bool.and_eq_true, decide_eq_true_eq] at hsolved
  exact ⟨sol, hsol, hsolved.1, hsolved.2,
    (answer_fits_question (E := withDiagonal) (library_standard {}) twoOnDiagonalGoal sol hsol).1⟩

end Engine

end Monotonicity
