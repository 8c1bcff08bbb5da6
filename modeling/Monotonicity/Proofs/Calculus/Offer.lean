import Monotonicity.Proofs.Calculus.Basic
import Monotonicity.Proofs.Search.Contract

/-!
# Proofs that stay derivations

A proof found at some moment is justified if it is a derivation whatever the final bindings and
obligations will be, as long as nothing is taken back. `replay` is the contract that every proof is
justified. A rule keeps it if the reductions that it emits are offered: their premises are
derivations already, and with derivations of their subgoals they are what the rule's method
prescribes. This is `keeps_replay`.
-/

namespace Monotonicity

open Search

variable {T : Theory} {σ τ υ : Subst} {goal : Goal} {n m : Nat}

theorem Goal.resolve_resolve (hτ : τ.Acyclic) (h : σ ≤ τ) (goal : Goal) :
    (goal.resolve σ).resolve τ = goal.resolve τ := by
  cases goal <;> simp [Goal.resolve, Goal.map, hτ.resolve_resolve h]

theorem Hypothesis.resolve_resolve (hτ : τ.Acyclic) (h : σ ≤ τ) (hyp : Hypothesis) :
    (hyp.resolve σ).resolve τ = hyp.resolve τ := by
  simp [Hypothesis.resolve, hτ.resolve_resolve h]

theorem Pending.resolve_resolve (hτ : τ.Acyclic) (h : σ ≤ τ) (o : Pending) :
    (o.resolve σ).resolve τ = o.resolve τ := by
  simp [Pending.resolve, Goal.resolve_resolve hτ h, Hypothesis.resolve_resolve hτ h]

/-- The proof is a derivation at all later bindings and obligations. -/
def Justified (T : Theory) (n : Nat) (hyps : List Hypothesis) (goal : Goal) (p : Proof)
    (τ : Subst) (delayed : List Pending) : Prop :=
  ∀ σ w, σ.Acyclic → τ ≤ σ → delayed <+: w →
    Derives T σ (w.map (·.resolve σ)) n (hyps.map (·.resolve σ)) (goal.resolve σ) p

/-- Every goal may be asked for, and every proof is justified. -/
def replay (T : Theory) : Contract where
  inv _ := True
  admits _ := True
  grants := Justified T
  admits_resolve _ _ := trivial
  grants_resolve := by
    intro n hyps goal p σ τ d hle h υ w hυ hτ hd
    rw [← Goal.resolve_resolve hυ (Subst.le_trans hle hτ)]
    exact h υ w hυ hτ hd
  grants_of_le hm h σ w hσ hτ hd := (h σ w hσ hτ hd).of_le hm
  grants_mono hle hd h σ w hσ hτ hw := h σ w hσ (Subst.le_trans hle hτ) (hd.trans hw)

/-- A list of premises, those of them derivations that are to be, and when they are to be. -/
structure AllDerived (T : Theory) (σ : Subst) (w : List Pending) (hyps : List Hypothesis)
    (premises : List Premise) : Prop where
  derived : ∀ since further g p, .derived since further g p ∈ premises →
    Derives T σ w since (hyps ++ further) g p
  settled : ∀ early since g p, .settled early since g p ∈ premises →
    Derives T σ w since hyps (g.resolve σ) p
  early : ∀ early since g p, .settled early since g p ∈ premises →
    Derives T early.subst early.delayed since early.hyps (g.resolve early.subst) p

section Premises

variable {w : List Pending} {hyps : List Hypothesis} {premises premises' : List Premise} {p : Proof}

theorem allDerived_nil : AllDerived T σ w hyps [] := by constructor <;> simp

theorem allDerived_leaf (h : AllDerived T σ w hyps premises) :
    AllDerived T σ w hyps (.leaf p :: premises) := by
  constructor <;> simp only [List.mem_cons, reduceCtorEq, false_or]
  · exact h.derived
  · exact h.settled
  · exact h.early

theorem allDerived_cons {further : List Hypothesis}
    (hp : Derives T σ w n (hyps ++ further) goal p) (h : AllDerived T σ w hyps premises) :
    AllDerived T σ w hyps (.derived n further goal p :: premises) := by
  constructor <;> simp only [List.mem_cons, reduceCtorEq, false_or]
  · rintro since further g q (heq | hq)
    · cases heq
      exact hp
    · exact h.derived since further g q hq
  · exact h.settled
  · exact h.early

theorem allDerived_settled {early : Moment} (hp : Derives T σ w n hyps (goal.resolve σ) p)
    (hearly : Derives T early.subst early.delayed n early.hyps (goal.resolve early.subst) p)
    (h : AllDerived T σ w hyps premises) :
    AllDerived T σ w hyps (.settled early n goal p :: premises) := by
  constructor <;> simp only [List.mem_cons, reduceCtorEq, false_or]
  · exact h.derived
  · rintro early since g q (heq | hq)
    · cases heq
      exact hp
    · exact h.settled early since g q hq
  · rintro early since g q (heq | hq)
    · cases heq
      exact hearly
    · exact h.early early since g q hq

theorem AllDerived.append (h : AllDerived T σ w hyps premises)
    (h' : AllDerived T σ w hyps premises') : AllDerived T σ w hyps (premises ++ premises') := by
  constructor <;> intro a b c d hmem <;> rcases List.mem_append.1 hmem with hmem | hmem
  · exact h.derived a b c d hmem
  · exact h'.derived a b c d hmem
  · exact h.settled a b c d hmem
  · exact h'.settled a b c d hmem
  · exact h.early a b c d hmem
  · exact h'.early a b c d hmem

/-- Derivations of goals under hypotheses of their own, as premises. -/
theorem exists_premises {α : Type} (further : α → List Hypothesis) (goal : α → Goal)
    {xs : List α} {ps : List Proof}
    (h : List.Forall₂ (fun x p => Derives T σ w n (hyps ++ further x) (goal x) p) xs ps) :
    ∃ rest, List.Forall₂ (fun x q => ∃ p, q = Premise.derived n (further x) (goal x) p) xs rest ∧
      rest.map Premise.proof = ps ∧ AllDerived T σ w hyps rest := by
  induction h with
  | nil => exact ⟨[], .nil, rfl, allDerived_nil⟩
  | @cons x p xs ps hp _ ih =>
    obtain ⟨rest, hrest, rfl, hderived⟩ := ih
    exact ⟨.derived n (further x) (goal x) p :: rest, .cons ⟨p, rfl⟩ hrest, rfl,
      allDerived_cons hp hderived⟩

end Premises

/-- A reduction that was made of a goal taken up at `s`, when it is emitted at `t`. Its premises are
derivations, and derivations of its subgoals complete them to what the method prescribes. -/
structure Offered (T : Theory) (s : State) (method : Method) (goal : Goal) (r : Reduction)
    (t : State) : Prop where
  grown : s.Grown t
  prescribed : ∀ σ w, σ.Acyclic → t.subst ≤ σ → t.delayed <+: w →
    ∃ n m premises, s.minted ≤ n ∧ m ≤ t.minted ∧ premises.map Premise.proof = r.premises ∧
      AllDerived T σ (w.map (·.resolve σ)) (s.hyps.map (·.resolve σ)) premises ∧
      ∀ rest, Owed m (r.subgoals.map (·.resolve σ)) rest →
        Prescribes T σ (w.map (·.resolve σ)) n (s.hyps.map (·.resolve σ)) method goal
          (premises ++ rest)

namespace Offered

variable {s t : State} {method : Method} {goals : List Goal} {r : Reduction}

/-- A reduction without premises of its own. -/
theorem of_subgoals (hs : s.Grown t) (hn : s.minted ≤ n) (hm : m ≤ t.minted)
    (h : ∀ σ w rest, σ.Acyclic → t.subst ≤ σ → Owed m (goals.map (·.resolve σ)) rest →
      Prescribes T σ w n (s.hyps.map (·.resolve σ)) method goal rest) :
    Offered T s method goal { subgoals := goals } t where
  grown := hs
  prescribed σ _ hσ hle _ :=
    ⟨n, m, [], hn, hm, rfl, allDerived_nil, fun rest hrest => h σ _ rest hσ hle hrest⟩

/-- A reduction that leaves nothing to be proved. -/
theorem closed (hs : s.Grown t)
    (h : ∀ σ w, σ.Acyclic → t.subst ≤ σ →
      Prescribes T σ w s.minted (s.hyps.map (·.resolve σ)) method goal []) :
    Offered T s method goal {} t := by
  refine of_subgoals hs le_rfl hs.minted fun σ w rest hσ hle hrest => ?_
  cases hrest
  exact h σ w hσ hle

/-- A reduction whose only premise is a leaf. -/
theorem of_leaf {p : Proof} (hs : s.Grown t)
    (h : ∀ σ w rest, σ.Acyclic → t.subst ≤ σ → t.delayed <+: w →
      Owed s.minted (goals.map (·.resolve σ)) rest →
      Prescribes T σ (w.map (·.resolve σ)) s.minted (s.hyps.map (·.resolve σ)) method goal
        (.leaf p :: rest)) :
    Offered T s method goal { premises := [p], subgoals := goals } t where
  grown := hs
  prescribed σ w hσ hle hw :=
    ⟨s.minted, s.minted, [.leaf p], le_rfl, hs.minted, rfl, allDerived_leaf allDerived_nil,
      fun rest hrest => h σ w rest hσ hle hw hrest⟩

/-- A reduction whose only premise is a proof found under further hypotheses. -/
theorem of_premise {since : Nat} {further : List Hypothesis} {g : Goal} {p : Proof}
    (hs : s.Grown t) (hn : s.minted ≤ n)
    (hp : Justified T since (s.hyps ++ further) g p t.subst t.delayed)
    (h : ∀ σ w, σ.Acyclic → t.subst ≤ σ →
      Prescribes T σ w n (s.hyps.map (·.resolve σ)) method goal
        [.derived since (further.map (·.resolve σ)) (g.resolve σ) p]) :
    Offered T s method goal { premises := [p] } t where
  grown := hs
  prescribed σ w hσ hle hw := by
    refine ⟨n, s.minted, [.derived since (further.map (·.resolve σ)) (g.resolve σ) p], hn,
      hs.minted, rfl, allDerived_cons ?_ allDerived_nil, fun rest hrest => ?_⟩
    · rw [← List.map_append]
      exact hp σ w hσ hle hw
    · cases hrest
      exact h σ _ hσ hle

/-- The proofs of the subgoals of an offered reduction complete it to a justified step. -/
theorem justified {u : State} {rule : Rule} {ps : List Proof}
    (h : Offered T s rule.method goal r t) (hrule : rule ∈ T.rules)
    (hfits : rule.pattern.fits .empty goal = true) (hu : t.Grown u)
    (hps : List.Forall₂ (fun g p => Justified T t.minted t.hyps g p u.subst u.delayed)
      r.subgoals ps) :
    Justified T s.minted s.hyps goal (.step rule.name (r.premises ++ ps)) u.subst u.delayed := by
  intro σ w hσ hle hw
  obtain ⟨n, m, premises, hn, hm, hproofs, hderived, hprescribes⟩ :=
    h.prescribed σ w hσ (Subst.le_trans hu.subst hle) (hu.delayed.trans hw)
  have hsub : List.Forall₂ (fun g p => Derives T σ (w.map (·.resolve σ)) m
      (s.hyps.map (·.resolve σ) ++ []) (g.resolve σ) p) r.subgoals ps :=
    hps.imp fun g p hp => by
      rw [← h.grown.hyps, List.append_nil]
      exact (hp σ w hσ hle hw).of_le hm
  obtain ⟨rest, howed, rfl, hrest⟩ := exists_premises (fun _ => []) (Goal.resolve σ) hsub
  rw [← hproofs, ← List.map_append]
  have hall := hderived.append hrest
  refine .step hrule hfits hn (hprescribes rest ?_) hall.derived hall.settled hall.early
  exact List.forall₂_map_left_iff.2 howed

end Offered

/-- All reductions that the method emits are offered, if the goals that it raises are proved by a
prover whose proofs are justified. -/
def Faithful (T : Theory) (method : Method) : Prop :=
  ∀ {prove : Prover}, (replay T).Met prove →
    ∀ {ρ : Type} {name : String} {goal : Goal} {emit : Reduction → Search ρ} {s : State}
      {S : ρ → State → Prop}, (s.subst.Acyclic → goal.Left s.subst) →
      (∀ r t, Offered T s method goal r t → (emit r).Yields t S) →
      (method.run T prove name goal emit).Yields s S

/-- A method that makes one reduction of a goal and raises no goals itself. -/
theorem Faithful.of_gets {method : Method} (m : Goal → Search Reduction)
    (hrun : ∀ {ρ : Type} (prove : Prover) (name : String) (goal : Goal)
      (emit : Reduction → Search ρ), method.run T prove name goal emit = m goal >>= emit)
    (h : ∀ goal s, (s.subst.Acyclic → goal.Left s.subst) →
      (m goal).Gets s fun r t => Offered T s method goal r t) : Faithful T method := by
  intro prove _ ρ name goal emit s S hleft hemit
  rw [hrun]
  exact (h goal s hleft).yields fun r t _ hr => hemit r t hr

/-- A rule with a faithful method keeps the contract. -/
theorem keeps_replay {rule : Rule} (hrule : rule ∈ T.rules) (h : Faithful T rule.method) :
    (replay T).Keeps T rule := by
  intro prove hprove ρ goal k s S hfits hleft _ _ hk
  refine h hprove hleft fun r t hr => ?_
  refine hprove.proveAll trivial (fun _ _ => trivial) fun ps u hu _ hps => ?_
  refine hk _ u ⟨hr.grown.trans hu, trivial, fun σ w hσ hle hw => ?_⟩
  -- the goal was left alone by the bindings of the moment, so it fits the pattern as it stands
  have hs : s.subst.Acyclic := hσ.of_le (Subst.le_trans (hr.grown.trans hu).subst hle)
  rw [(hleft hs).fits_eq] at hfits
  exact hr.justified hrule hfits hu hps σ w hσ hle hw

end Monotonicity
