import Monotonicity.Proofs.Calculus.Candidate
import Monotonicity.Proofs.Calculus.CaseSplit
import Monotonicity.Proofs.Calculus.Inclusion
import Monotonicity.Proofs.Calculus.Introduction
import Monotonicity.Query.Engine

/-!
# Every returned proof replays

The methods of the standard rules and of the relators' rules are faithful, so a solver of a theory
that has no other rules hands on derivations only. In particular the proof that an engine returns,
outright or up to obligations put off, is a derivation of the goal that it returns.
-/

namespace Monotonicity

open Search

/-- The theory has standard rules and rules of relators only. -/
def Theory.Library (T : Theory) : Prop :=
  ∀ rule ∈ T.rules, rule ∈ Rule.standard ∨ ∃ r : Relator, rule = r.rule

variable {T : Theory}

theorem mem_insertAll {rule : Rule} {rules table : List Rule} :
    rule ∈ Rule.insertAll rules table ↔ rule ∈ rules ∨ rule ∈ table := by
  induction rules generalizing table with
  | nil => simp [Rule.insertAll]
  | cons r rules ih =>
    have hinsert : rule ∈ r.insert table ↔ rule = r ∨ rule ∈ table := by
      rw [(Rule.insert_perm r table).mem_iff, List.mem_cons]
    rw [Rule.insertAll, List.foldl_cons, ← Rule.insertAll, ih, hinsert, List.mem_cons]
    tauto

theorem library_standard (limits : Limits) : (Theory.standard limits).Library := by
  intro rule hrule
  have hmem := mem_insertAll.1 hrule
  simp only [List.not_mem_nil, or_false] at hmem
  exact .inl hmem

theorem Theory.Library.addRelator (h : T.Library) (r : Relator) : (T.addRelator r).Library := by
  intro rule hrule
  rcases List.mem_cons.1 ((Rule.insert_perm r.rule T.rules).mem_iff.1 hrule) with rfl | hrule
  · exact .inr ⟨r, rfl⟩
  · exact h rule hrule

theorem Theory.Library.addRelators (h : T.Library) : T.addRelators.Library :=
  (((h.addRelator .option).addRelator .prod).addRelator .sum).addRelator .list

/-- A library has no scripts. -/
theorem Theory.Library.unscripted (h : T.Library) {rule : Rule} (hrule : rule ∈ T.rules) :
    (∀ locals body, rule.method ≠ .script locals body) ∧
      ∀ locals alternatives, rule.method ≠ .choice locals alternatives := by
  rcases h rule hrule with hstandard | ⟨r, rfl⟩
  · simp only [Rule.standard, List.mem_cons, List.not_mem_nil, or_false] at hstandard
    rcases hstandard with rfl | rfl | rfl | rfl | rfl | rfl | rfl | rfl | rfl | rfl | rfl | rfl |
      rfl | rfl | rfl | rfl | rfl | rfl <;> simp
  · simp [Relator.rule]

/-- All methods of a library's rules are faithful. -/
theorem Theory.Library.faithful (h : T.Library) {rule : Rule} (hrule : rule ∈ T.rules) :
    Faithful T rule.method := by
  rcases h rule hrule with hstandard | ⟨r, rfl⟩
  · simp only [Rule.standard, List.mem_cons, List.not_mem_nil, or_false] at hstandard
    rcases hstandard with rfl | rfl | rfl | rfl | rfl | rfl | rfl | rfl | rfl | rfl | rfl | rfl |
      rfl | rfl | rfl | rfl | rfl | rfl
    · exact faithful_top
    · exact faithful_eqRefl
    · exact faithful_flipIntro
    · exact faithful_arrowIntro
    · exact faithful_dependentIntro
    · exact faithful_casesReduce
    · exact faithful_subrelRefl
    · exact faithful_subrelExtremes
    · exact faithful_subrelFact
    · exact faithful_subrelStructural
    · exact faithful_subrelTrans
    · exact faithful_destruct
    · exact faithful_monotone .left
    · exact faithful_monotone .right
    · exact faithful_eqCongruence
    · exact faithful_eqUnify
    · exact faithful_reflPlaceholder
    · exact faithful_deferUnsolved
  · exact faithful_relatorIntro

/-- The solver of a library hands on justified proofs only, and takes back what it did if it
fails. -/
theorem Theory.Library.met_replay (h : T.Library) (room : Nat) : (replay T).Met (solve T room) :=
  Contract.met_solve (fun _ hrule => keeps_replay hrule (h.faithful hrule)) room

/-! ## Solutions -/

namespace Engine

variable {E : Engine} {goal : Goal} {sol : Solution} {p : Proof}

/-- A solution is read off the state in which the search ended. -/
theorem solve_eq_ok (h : (E.solve goal).1.result = .ok sol) :
    ∃ bound, schematic? goal.terms = some bound ∧
      ((∃ p final, (E.search goal).run (E.start bound) = .success p final ∧
          sol = .ofProof goal bound p final) ∨
        ∃ why final, (E.search goal).run (E.start bound) = .failure why final ∧
          sol = .ofFailure goal bound why final) := by
  unfold Engine.solve query at h
  split at h
  · cases h
  · next bound hbound =>
    refine ⟨bound, hbound, ?_⟩
    dsimp only at h
    split at h
    · next p final hrun =>
      cases h
      exact .inl ⟨p, final, hrun, rfl⟩
    · next why final hrun =>
      cases h
      exact .inr ⟨why, final, hrun, rfl⟩
    · cases h

/-- From the start, the search takes back what it did if it fails, and finds justified proofs
only. -/
theorem search_restores (hE : E.theory.Library) (bound : Nat) :
    (E.search goal).Restores (E.start bound) fun p final => final.subst.Acyclic ∧
      Justified E.theory E.symbols.minted [] goal p final.subst final.delayed :=
  hE.met_replay _ trivial trivial fun _ _ ht => ⟨ht.grown.acyclic Subst.acyclic_empty, ht.grants⟩

/-- The proof that a search ends with is a derivation at the final bindings, with the obligations
put off in the end. -/
theorem derives_of_search (hE : E.theory.Library) {bound : Nat} {final : State}
    (hrun : (E.search goal).run (E.start bound) = .success p final) :
    final.subst.Acyclic ∧
      Derives E.theory final.subst (final.delayed.map (·.resolve final.subst)) E.symbols.minted []
        (goal.resolve final.subst) p := by
  obtain ⟨hacyclic, hjustified⟩ := (search_restores hE bound).of_success hrun
  exact ⟨hacyclic,
    hjustified final.subst final.delayed hacyclic (Subst.le_refl _) (List.prefix_refl _)⟩

/-- Where a goal was solved, nothing was put off. -/
theorem derives_of_solved (hE : E.theory.Library) (h : (E.solve goal).1.result = .ok sol)
    (hsolved : sol.isSolved = true) :
    ∃ bound p final, (E.search goal).run (E.start bound) = .success p final ∧
      sol.goal = goal.resolve final.subst ∧ final.subst.Acyclic ∧
      Derives E.theory final.subst [] E.symbols.minted [] (goal.resolve final.subst) p := by
  obtain ⟨bound, -, ⟨p, final, hrun, rfl⟩ | ⟨why, final, hrun, rfl⟩⟩ := solve_eq_ok h
  · obtain ⟨hacyclic, hderives⟩ := derives_of_search hE hrun
    rw [Solution.isSolved_ofProof, List.isEmpty_iff] at hsolved
    rw [hsolved] at hderives
    exact ⟨bound, p, final, hrun, rfl, hacyclic, hderives⟩
  · cases hsolved

/-- The proof that `solve` returns is a derivation of its goal from no hypotheses, at the final
bindings and with the obligations that the solution lists. -/
theorem solution_replays (hE : E.theory.Library) (h : (E.solve goal).1.result = .ok sol)
    (hp : sol.proof? = some p) :
    ∃ bound final, schematic? goal.terms = some bound ∧
      (E.search goal).run (E.start bound) = .success p final ∧
      sol.goal = goal.resolve final.subst ∧
      sol.bindings = Solution.valuesBelow final.subst bound ∧
      sol.pending = final.delayed.map (·.resolve final.subst) ∧
      final.subst.Acyclic ∧
      Derives E.theory final.subst sol.pending E.symbols.minted [] sol.goal p := by
  obtain ⟨bound, hbound, ⟨q, final, hrun, rfl⟩ | ⟨why, final, hrun, rfl⟩⟩ := solve_eq_ok h
  · obtain rfl : q = p := by simpa using hp
    obtain ⟨hacyclic, hderives⟩ := derives_of_search hE hrun
    refine ⟨bound, final, hbound, hrun, rfl, rfl, Solution.pending_ofProof .., hacyclic, ?_⟩
    rw [Solution.pending_ofProof]
    exact hderives
  · cases hp

/-- An engine that was told that `f` is monotone and that `le a b`. -/
def withMonotone : Engine :=
  let le : Term := .const "le"
  let told : Option Registry := do
    let (_, r) ← Registry.addSelf? {} (.arrow le le) (.const "f") (.const "f_mono")
    let (_, r) ← r.addFact? le (.const "a") (.const "b") (.const "ab")
    return r
  { Engine.new {} with theory := { Theory.standard {} with registry := told.getD {} } }

/-- For `le (f a) (f ?0)` the placeholder is filled, and what is returned derives the goal with its
value. -/
theorem withMonotone_replays :
    ∃ sol p, (withMonotone.solve (.related (.const "le") (.app "f" [.const "a"])
        (.app "f" [.var 0]))).1.result = .ok sol ∧ sol.proof? = some p ∧
      sol.bindings = [(0, .const "b")] ∧
      ∃ σ, Derives withMonotone.theory σ sol.pending 0 [] (.related (.const "le")
        (.app "f" [.const "a"]) (.app "f" [.const "b"])) p := by
  have hsolved : (match (withMonotone.solve (.related (.const "le") (.app "f" [.const "a"])
      (.app "f" [.var 0]))).1.result with
    | .ok sol => sol.proof?.isSome && decide (sol.bindings = [(0, .const "b")]) &&
        decide (sol.goal = .related (.const "le") (.app "f" [.const "a"]) (.app "f" [.const "b"]))
    | .error _ => false) = true := by
    decide +kernel
  split at hsolved
  · next sol hsol =>
    simp only [Bool.and_eq_true, decide_eq_true_eq, Option.isSome_iff_exists] at hsolved
    obtain ⟨⟨⟨p, hp⟩, hbindings⟩, hgoal⟩ := hsolved
    obtain ⟨-, final, -, -, -, -, -, -, hderives⟩ :=
      solution_replays (library_standard {}) hsol hp
    rw [hgoal] at hderives
    exact ⟨sol, p, hsol, hp, hbindings, final.subst, hderives⟩
  · cases hsolved

end Engine

end Monotonicity
