import Monotonicity.Proofs.Renaming.Library
import Monotonicity.Query.Engine

/-!
# Answers under other names

Two engines with one theory that a renaming leaves alone answer a goal and the renamed goal alike,
up to the renaming: this is `solve_smul`. The caller's placeholders are shifted with the rest, so
that the bindings that are reported are those of the same placeholders.
-/

namespace Monotonicity

variable {r : Renaming}

/-! ## Solutions -/

/-- The conjunction with other names. -/
def Conj.renamed (r : Renaming) : Conj → Conj
  | .unit => .unit
  | .hole => .hole
  | .and first rest => .and (r • first) (rest.renamed r)

instance : SMul Renaming Conj := ⟨Conj.renamed⟩

/-- The verdict with other names. -/
def Verdict.renamed (r : Renaming) : Verdict → Verdict
  | .solved proof => .solved (r • proof)
  | .deferred proof witness => .deferred (r • proof) (r • witness)
  | .failed why => .failed (r • why)

instance : SMul Renaming Verdict := ⟨Verdict.renamed⟩

/-- Values with their placeholders are shifted. -/
instance : SMul Renaming Solution :=
  ⟨fun r sol =>
    { goal := r • sol.goal
      verdict := r • sol.verdict
      bindings := sol.bindings.map fun b => (b.1 + r.shift, r • b.2)
      stats := sol.stats }⟩

instance : SMul Renaming (Answer Solution) :=
  ⟨fun r answer => { answer with result := answer.result.map (r • ·) }⟩

theorem Answer.result_smul (answer : Answer Solution) :
    (r • answer).result = answer.result.map (r • ·) := rfl

theorem close_smul (σ : Subst) (delayed : List Pending) :
    close (r • σ) (delayed.map (r • ·)) = r • close σ delayed := by
  induction delayed with
  | nil => rfl
  | cons p delayed ih =>
    simp only [close, List.map_map, List.map_cons, Conj.ofList, List.foldr_cons] at ih ⊢
    rw [Pending.resolve_smul, ih]
    rfl

theorem insertIndex_add (k i : Nat) (indices : List Nat) :
    Solution.insertIndex (i + k) (indices.map (· + k)) =
      (Solution.insertIndex i indices).map (· + k) := by
  induction indices with
  | nil => rfl
  | cons j indices ih =>
    simp only [List.map_cons, Solution.insertIndex, ih, Nat.add_lt_add_iff_right,
      Nat.add_right_cancel_iff]
    split
    · rfl
    · split <;> rfl

/-- The values of the caller's placeholders, all of them shifted. -/
theorem valuesBelow_smul (σ : Subst) (bound : Nat) :
    Solution.valuesBelow (r • σ) (bound + r.shift) =
      (Solution.valuesBelow σ bound).map fun b => (b.1 + r.shift, r • b.2) := by
  have hindices : ((r • σ).trail.map (·.1)).filter (· < bound + r.shift) =
      ((σ.trail.map (·.1)).filter (· < bound)).map (· + r.shift) := by
    simp [Subst.trail_smul, List.filter_map, Function.comp_def]
  have hrise (indices : List Nat) : (indices.map (· + r.shift)).foldr Solution.insertIndex [] =
      (indices.foldr Solution.insertIndex []).map (· + r.shift) := by
    induction indices with
    | nil => rfl
    | cons i indices ih => rw [List.map_cons, List.foldr_cons, ih, insertIndex_add, List.foldr_cons]
  simp only [Solution.valuesBelow, hindices, hrise, List.map_map]
  refine List.map_congr_left fun i _ => ?_
  simp [← Subst.resolve_smul]

namespace State.Mirror

variable {s t : State}

theorem ofFailure (h : s.Mirror r t) (goal : Goal) (bound : Nat) (why : Failure) :
    Solution.ofFailure (r • goal) (bound + r.shift) (r • why) t =
      r • Solution.ofFailure goal bound why s := by
  simp only [Solution.ofFailure, Solution.ofState, h.subst, h.ledger.stats, Goal.resolve_smul,
    valuesBelow_smul]
  rfl

theorem ofProof (h : s.Mirror r t) (goal : Goal) (bound : Nat) (p : Proof) :
    Solution.ofProof (r • goal) (bound + r.shift) (r • p) t =
      r • Solution.ofProof goal bound p s := by
  simp only [Solution.ofProof, Solution.ofState, h.subst, h.ledger.stats, h.delayed,
    Goal.resolve_smul, valuesBelow_smul, close_smul, List.isEmpty_map]
  split <;> rfl

end State.Mirror

/-! ## Answers -/

namespace Engine

variable {E E' : Engine} {goal : Goal}

/-- The first placeholder that the search for a goal left unused. -/
def reach (E : Engine) (goal : Goal) : Nat :=
  ((E.search goal).run (E.start (Term.boundAll goal.terms))).ledger.nextVar

/-- Engines that mint constants which the renaming takes to each other. -/
structure Mirror (r : Renaming) (E E' : Engine) : Prop where
  theory : E'.theory = E.theory
  minting : ∀ hint i, Symbols.isMarked hint = false →
    r.name (Symbols.minting hint (E.symbols.minted + i)) =
      Symbols.minting hint (E'.symbols.minted + i)

theorem Mirror.start (h : Mirror r E E') (bound : Nat) :
    (E.start bound).Mirror r (E'.start (bound + r.shift)) where
  subst := rfl
  hyps := rfl
  delayed := rfl
  active := rfl
  depth := rfl
  ledger :=
    { nextVar := rfl
      minting := h.minting
      stats := rfl
      bridges := rfl
      crossed := rfl
      log := rfl }

theorem search_smul (h : Mirror r E E') (hT : E.theory.Untouched r) (hE : E.theory.Library)
    (goal : Goal) : Search.Mirrors r (r • ·) (E.search goal) (E'.search (r • goal)) := by
  unfold search
  rw [h.theory]
  exact hT.solve hE _ fun p => .pure rfl

/-- A goal with a placeholder has its bound shifted, and any other goal its own one. -/
theorem boundAll_terms_smul (h : r.shift = 0 ∨ 0 < Term.boundAll goal.terms) :
    Term.boundAll (r • goal).terms = Term.boundAll goal.terms + r.shift := by
  rw [Goal.terms_smul, Term.boundAll_smul]
  split <;> omega

/-- The answer to a goal under other names. A shift needs a placeholder in the goal, so that the
further ones are shifted too, and room above the placeholders that the search comes to. -/
theorem solve_smul (h : Mirror r E E') (hT : E.theory.Untouched r) (hE : E.theory.Library)
    (hshift : r.shift = 0 ∨ 0 < Term.boundAll goal.terms ∧ E.reach goal + r.shift < indexBound) :
    (E'.solve (r • goal)).1 = r • (E.solve goal).1 := by
  have hmirrors := search_smul h hT hE goal
  have hbound := boundAll_terms_smul (hshift.imp_right And.left)
  have hreach := hmirrors.advances (E.start (Term.boundAll goal.terms))
  have hfits : Term.boundAll (r • goal).terms < indexBound ↔
      Term.boundAll goal.terms < indexBound := by
    change Term.boundAll goal.terms ≤ E.reach goal at hreach
    omega
  by_cases hroom : Term.boundAll goal.terms < indexBound
  · have hrun := hmirrors.mirror _ _ (h.start (Term.boundAll goal.terms))
    rw [← hbound] at hrun
    simp only [solve, query, schematic?, if_pos hroom, if_pos (hfits.2 hroom)]
    unfold reach at hshift
    generalize (E.search goal).run _ = o, (E'.search (r • goal)).run _ = o' at hrun hshift ⊢
    cases hrun with
    | success hst =>
      dsimp only
      rw [hbound, hst.ofProof, hst.ledger.log]
      rfl
    | failure hst =>
      dsimp only
      rw [hbound, hst.ofFailure, hst.ledger.log]
      rfl
    | overflow hl =>
      dsimp only
      rw [hl.log]
      rfl
    | outgrown hpos hout => omega
  · simp only [solve, query, schematic?, if_neg hroom, if_neg fun hlt => hroom (hfits.1 hlt)]
    rfl

end Engine

end Monotonicity
