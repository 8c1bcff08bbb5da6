import Monotonicity.Proofs.Renaming.Substitution
import Monotonicity.Query.Solution

/-!
# Goals, proofs and failures under other names

What a search is about and what it has to say is made of terms, and a renaming acts on all of it.
The names of rules, the numbers of facts and the positions of obligations put off stay.
-/

namespace Monotonicity

variable {r : Renaming}

/-! ## Goals and hypotheses -/

instance : SMul Renaming Goal := ⟨fun r => Goal.map (r • ·)⟩

instance : SMul Renaming Hypothesis :=
  ⟨fun r h => ⟨r • h.rel, r • h.left, r • h.right, r • h.witness⟩⟩

instance : SMul Renaming Pending := ⟨fun r p => ⟨r • p.goal, p.hyps.map (r • ·)⟩⟩

instance : SMul Renaming Case := ⟨fun r c => ⟨c.hyps.map (r • ·), r • c.goal⟩⟩

namespace Goal

@[simp] theorem smul_related (rel left right : Term) :
    r • Goal.related rel left right = .related (r • rel) (r • left) (r • right) := rfl

@[simp] theorem smul_subrel (lesser greater : Term) :
    r • Goal.subrel lesser greater = .subrel (r • lesser) (r • greater) := rfl

theorem terms_smul (goal : Goal) : (r • goal).terms = goal.terms.map (r • ·) := by
  cases goal <;> rfl

@[simp] theorem resolve_smul (σ : Subst) (goal : Goal) :
    (r • goal).resolve (r • σ) = r • goal.resolve σ := by
  cases goal <;> simp [resolve, map]

theorem smul_inj (hr : r.Proper) {goal goal' : Goal} : r • goal = r • goal' ↔ goal = goal' := by
  cases goal <;> cases goal' <;> simp [Term.smul_inj hr]

theorem smul_eq_self (goal : Goal) (h : ∀ t ∈ goal.terms, r • t = t) : r • goal = goal := by
  cases goal <;> simp_all [terms]

end Goal

@[simp] theorem Hypothesis.smul_mk (rel left right witness : Term) :
    r • Hypothesis.mk rel left right witness = ⟨r • rel, r • left, r • right, r • witness⟩ := rfl

@[simp] theorem Hypothesis.resolve_smul (σ : Subst) (h : Hypothesis) :
    (r • h).resolve (r • σ) = r • h.resolve σ := by
  cases h
  simp [resolve]

@[simp] theorem Pending.smul_mk (goal : Goal) (hyps : List Hypothesis) :
    r • Pending.mk goal hyps = ⟨r • goal, hyps.map (r • ·)⟩ := rfl

@[simp] theorem Pending.resolve_smul (σ : Subst) (p : Pending) :
    (r • p).resolve (r • σ) = r • p.resolve σ := by
  cases p
  simp [resolve]

@[simp] theorem Case.smul_mk (hyps : List Hypothesis) (goal : Goal) :
    r • Case.mk hyps goal = ⟨hyps.map (r • ·), r • goal⟩ := rfl

/-- The side of a pair that is picked is picked before or after the names change. -/
theorem Side.pick_smul {α : Type} [SMul Renaming α] (side : Side) (left right : α) :
    side.pick (r • left) (r • right) = r • side.pick left right := by
  cases side <;> rfl

theorem Pattern.fits_smul (hr : r.Proper) {pattern : Pattern}
    (hnamed : ∀ head, pattern = .related (.named head) → r.name head = head) (σ : Subst)
    (goal : Goal) : pattern.fits (r • σ) (r • goal) = pattern.fits σ goal := by
  cases goal with
  | subrel lesser greater => cases pattern <;> rfl
  | related rel left right =>
    cases pattern with
    | related shape =>
      simp only [Goal.smul_related, fits, Subst.view_smul hr, View.shape_smul, decide_eq_decide]
      cases shape with
      | named head =>
        have hhead := hnamed head rfl
        cases (σ.view rel).shape with
        | named head' =>
          simp only [Shape.renamed, Shape.named.injEq]
          rw [← hr.injective.eq_iff (a := head'), hhead]
        | _ => simp [Shape.renamed]
      | _ => cases (σ.view rel).shape <;> simp [Shape.renamed]
    | bothCases => simp [fits]
    | _ => rfl

/-! ## Proofs -/

namespace Proof

mutual
/-- The proof with other names. -/
def renamed (r : Renaming) : Proof → Proof
  | .fact id w => .fact id (r • w)
  | .inclusion id => .inclusion id
  | .hypothesis w => .hypothesis (r • w)
  | .deferred i => .deferred i
  | .step rule ps => .step rule (renamedAll r ps)

/-- The same for several proofs. -/
def renamedAll (r : Renaming) : List Proof → List Proof
  | [] => []
  | p :: ps => p.renamed r :: renamedAll r ps
end

end Proof

instance : SMul Renaming Proof := ⟨Proof.renamed⟩

namespace Proof

theorem renamedAll_eq_map (ps : List Proof) : renamedAll r ps = ps.map (r • ·) := by
  induction ps with
  | nil => rfl
  | cons p ps ih => rw [renamedAll, ih]; rfl

@[simp] theorem smul_fact (id : Nat) (w : Term) : r • Proof.fact id w = .fact id (r • w) := rfl

@[simp] theorem smul_inclusion (id : Nat) : r • Proof.inclusion id = .inclusion id := rfl

@[simp] theorem smul_hypothesis (w : Term) : r • Proof.hypothesis w = .hypothesis (r • w) := rfl

@[simp] theorem smul_deferred (i : Nat) : r • Proof.deferred i = .deferred i := rfl

@[simp] theorem smul_step (rule : String) (ps : List Proof) :
    r • Proof.step rule ps = .step rule (ps.map (r • ·)) := by
  rw [← renamedAll_eq_map]
  rfl

@[simp] theorem witness?_smul (p : Proof) : (r • p).witness? = p.witness?.map (r • ·) := by
  fun_induction witness? p with
  | case1 id w => rfl
  | case2 w => rfl
  | case3 rule p ih => simpa [witness?] using ih
  | case4 p h₁ h₂ h₃ =>
    cases p with
    | fact id w => exact (h₁ id w rfl).elim
    | hypothesis w => exact (h₂ w rfl).elim
    | inclusion id => rfl
    | deferred i => rfl
    | step rule ps =>
      match ps, h₃ with
      | [], _ => simp [witness?]
      | [p], h => exact (h rule p rfl).elim
      | p :: q :: ps, _ => simp [witness?]

end Proof

instance : SMul Renaming Reduction := ⟨fun r d => ⟨d.premises.map (r • ·), d.subgoals.map (r • ·)⟩⟩

@[simp] theorem Reduction.smul_mk (premises : List Proof) (subgoals : List Goal) :
    r • Reduction.mk premises subgoals = ⟨premises.map (r • ·), subgoals.map (r • ·)⟩ := rfl

/-! ## Failures -/

/-- The subject with other names. A subject in words stays as it is. -/
def Subject.renamed (r : Renaming) : Subject → Subject
  | .goal g => .goal (r • g)
  | .underway g => .underway (r • g)
  | .term t => .term (r • t)
  | .text s => .text s

instance : SMul Renaming Subject := ⟨Subject.renamed⟩

/-- The failure with other names. -/
def Failure.renamed (r : Renaming) : Failure → Failure
  | .noCandidate subject => .noCandidate (r • subject)
  | .noRule subject => .noRule (r • subject)
  | .gap subject => .gap (r • subject)
  | .openWitness => .openWitness
  | .exhausted depth steps => .exhausted depth steps
  | .unknownFact id => .unknownFact id
  | .notTransportable obstacle => .notTransportable obstacle

instance : SMul Renaming Failure := ⟨Failure.renamed⟩

namespace Failure

@[simp] theorem specificity_smul (why : Failure) : (r • why).specificity = why.specificity := by
  cases why <;> rfl

@[simp] theorem isExhausted_smul (why : Failure) : (r • why).isExhausted = why.isExhausted := by
  cases why <;> rfl

theorem orElse_smul (why : Failure) (best : Option Failure) :
    (r • why).orElse (best.map (r • ·)) = r • why.orElse best := by
  cases best with
  | none => rfl
  | some earlier =>
    simp only [Option.map_some, orElse, specificity_smul]
    split <;> rfl

end Failure

end Monotonicity
