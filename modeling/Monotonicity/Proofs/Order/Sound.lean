import Monotonicity.Proofs.Order.Complete
import Monotonicity.Proofs.Query.Deferral
import Monotonicity.Proofs.Semantics.Inclusion

/-!
# Inclusions that are found hold

What a solver that puts nothing off finds for an inclusion between plain ground relations has a
derivation. The rules are followed by a contract: each of them makes a step of a derivation, from
derivations of the goals that it leaves (`ordering_steps`). With `Included.sure` this says what an
engine answers, up to limits: `holds_iff_derivable`.
-/

namespace Monotonicity

open Search

variable {T : Theory} {s t : State} {goal : Goal} {lesser greater : Term} {n : Nat}

/-- The goal is an inclusion between plain ground relations. -/
def Goal.GroundOrder : Goal → Prop
  | .subrel lesser greater => lesser.PlainGround ∧ greater.PlainGround
  | .related _ _ _ => False

/-- The registered inclusions are between plain ground relations. -/
def Registry.PlainGroundOrder (r : Registry) : Prop :=
  ∀ f ∈ r.inclusions, f.lesser.PlainGround ∧ f.greater.PlainGround

theorem Registry.PlainGroundOrder.groundOrder {r : Registry} (h : r.PlainGroundOrder) :
    r.GroundOrder :=
  fun f hf => ⟨(h f hf).1.ground, (h f hf).2.ground⟩

/-- The inclusion has a derivation. -/
def Goal.Derivable (r : Registry) : Goal → Prop
  | .subrel lesser greater => ∃ n, Included r n lesser greater
  | .related _ _ _ => False

theorem Goal.GroundOrder.resolve_eq (h : goal.GroundOrder) (σ : Subst) : goal.resolve σ = goal := by
  cases goal with
  | related rel left right => exact h.elim
  | subrel lesser greater =>
    simp only [resolve, map, (Term.leaves_of_ground h.1.ground σ).resolve_eq,
      (Term.leaves_of_ground h.2.ground σ).resolve_eq]

/-- Only inclusions between plain ground relations are asked for, and those that are proved have
derivations. Their proofs refer to nothing put off. -/
def groundOrder (r : Registry) : Contract where
  inv := Subst.Acyclic
  admits := Goal.GroundOrder
  grants _ _ goal p _ _ := goal.GroundOrder → goal.Derivable r ∧ p.deferrals = []
  admits_resolve := by
    intro σ goal _ h
    rwa [h.resolve_eq]
  grants_resolve := by
    intro n hyps goal p σ τ d _ h hgoal
    rw [hgoal.resolve_eq] at h
    exact h hgoal
  grants_of_le _ h := h
  grants_mono _ _ h := h

/-- What a rule makes of an inclusion is a step of a derivation. -/
structure Reduction.Steps (r : Registry) (goal : Goal) (reduction : Reduction) : Prop where
  admitted : ∀ g ∈ reduction.subgoals, g.GroundOrder
  derivable : (∀ g ∈ reduction.subgoals, g.Derivable r) → goal.Derivable r
  outright : Proof.deferralsAll reduction.premises = []

/-- Terms without placeholders that are unified are the same. -/
theorem eq_of_unified {σ τ : Subst} (hacyclic : σ.Acyclic) {pairs : List (Term × Term)} {a b : Term}
    (h : Subst.Unified σ pairs τ) (hmem : (a, b) ∈ pairs) (ha : a.ground = true)
    (hb : b.ground = true) : a = b := by
  have heq := h.resolve_eq hmem (h.gains.acyclic hacyclic) (Subst.le_refl τ)
  rwa [(Term.leaves_of_ground ha τ).resolve_eq, (Term.leaves_of_ground hb τ).resolve_eq] at heq

/-- What the structural rule makes of an inclusion between plain ground relations is a step. -/
theorem Search.Structural.steps {σ τ : Subst} {m : Nat} {pairs : List (Term × Term)}
    {goals : List Goal} (h : Structural T σ n lesser greater pairs goals m)
    (hacyclic : σ.Acyclic) (hunified : Subst.Unified σ pairs τ) (hl : lesser.PlainGround)
    (hg : greater.PlainGround) :
    Reduction.Steps T.registry (.subrel lesser greater) { subgoals := goals } := by
  have hlv : σ.view lesser = lesser.view := (Term.leaves_of_ground hl.ground σ).view_eq
  have hgv : σ.view greater = greater.view := (Term.leaves_of_ground hg.ground σ).view_eq
  have hxs : ∀ a ∈ lesser.view.parts, a.PlainGround := fun a => hl.of_mem_parts
  have hys : ∀ b ∈ greater.view.parts, b.PlainGround := fun b => hg.of_mem_parts
  cases h with
  | arrow h h' =>
    rw [hlv] at h
    rw [hgv] at h'
    rw [h] at hxs
    rw [h'] at hys
    simp only [View.parts, List.forall_mem_cons] at hxs hys
    refine ⟨by simp [Goal.GroundOrder, hxs, hys], fun hgoals => ?_, rfl⟩
    rw [List.forall_mem_cons, List.forall_mem_singleton] at hgoals
    obtain ⟨⟨i, hi⟩, j, hj⟩ := hgoals
    exact ⟨max i j + 1, .arrow h h' (hi.mono (le_max_left i j)) (hj.mono (le_max_right i j))⟩
  | flip h h' =>
    rw [hlv] at h
    rw [hgv] at h'
    rw [h] at hxs
    rw [h'] at hys
    simp only [View.parts, List.forall_mem_cons] at hxs hys
    refine ⟨by simp [Goal.GroundOrder, hxs, hys], fun hgoals => ?_, rfl⟩
    obtain ⟨i, hi⟩ := List.forall_mem_singleton.1 hgoals
    exact ⟨i + 1, .flip h h' hi⟩
  | dependent h =>
    rw [hlv] at h
    exact (Term.Plain.view_ne_dependent hl.plain _ _ h).elim
  | @named head xs ys variances h h' hlen hv hlen' =>
    rw [hlv] at h
    rw [hgv] at h'
    rw [h] at hxs
    rw [h'] at hys
    have harguments : ∀ a b v, (a, b, v) ∈ xs.zip (ys.zip variances) →
        a.PlainGround ∧ b.PlainGround := by
      intro a b v hmem
      obtain ⟨ha, hbv⟩ := List.of_mem_zip hmem
      exact ⟨hxs a ha, hys b (List.of_mem_zip hbv).1⟩
    refine ⟨fun g hmem => ?_, fun hgoals => ?_, rfl⟩
    · obtain ⟨a, b, v, hab, rfl | rfl⟩ := exists_of_mem_argumentGoals hmem
      · exact harguments a b v hab
      · exact (harguments a b v hab).symm
    · refine Included.of_named h h' hlen hv hlen' (fun a b hab => ?_) fun a b hab => hgoals _ hab
      obtain ⟨ha, hb⟩ := harguments a b _ hab
      exact eq_of_unified hacyclic hunified (mem_invariantPairs.2 hab) ha.ground hb.ground

/-- A method for inclusions makes steps of derivations only, if nothing is put off. -/
theorem ordering_steps {ρ : Type} {prove : Prover} {name : String} {emit : Reduction → Search ρ}
    {S : ρ → State → Prop} {method : Method} (hmethod : method ∈ Method.ordering)
    (hreg : T.registry.PlainGroundOrder) (hlimits : T.limits.deferUnsolved = false)
    (hl : lesser.PlainGround) (hg : greater.PlainGround) (hacyclic : s.subst.Acyclic)
    (hemit : ∀ r t, s.Grown t → r.Steps T.registry (.subrel lesser greater) → (emit r).Yields t S) :
    (method.run T prove name (.subrel lesser greater) emit).Yields s S := by
  have hseen {t : Term} (ht : t.PlainGround) : s.subst.view t = t.view :=
    (Term.leaves_of_ground ht.ground _).view_eq
  simp only [Method.ordering, List.mem_cons, List.not_mem_nil, or_false] at hmethod
  rcases hmethod with rfl | rfl | rfl | rfl | rfl | rfl
  · refine subrelRefl_gets.yields fun r t ht hr => ?_
    obtain ⟨rfl, hr⟩ := hr
    refine hemit {} t ht ⟨by simp, fun _ => ⟨0, .same ?_⟩, rfl⟩
    rcases hr with ⟨-, hview⟩ | hunified
    · rwa [hseen hl, hseen hg] at hview
    · rw [eq_of_unified hacyclic hunified List.mem_cons_self hl.ground hg.ground]
  · refine subrelExtremes_gets.yields fun r t ht hr => ?_
    obtain ⟨rfl, rfl, hview⟩ := hr
    rw [hseen hl, hseen hg] at hview
    exact hemit {} _ ht ⟨by simp, fun _ => ⟨0, .extreme hview⟩, rfl⟩
  · refine subrelFact_yields fun id f offset t ht hf hunified => ?_
    have hmem := Array.mem_of_getElem? hf
    obtain ⟨hfl, hfg⟩ := hreg f hmem
    rw [Term.rename_of_ground hfl.ground, Term.rename_of_ground hfg.ground] at hunified
    have hlesser := eq_of_unified hacyclic hunified (by simp) hl.ground hfl.ground
    have hgreater := eq_of_unified hacyclic hunified (by simp) hg.ground hfg.ground
    subst hlesser hgreater
    exact hemit _ t ht ⟨by simp, fun _ => ⟨1, .through hmem (.same rfl)⟩, rfl⟩
  · refine subrelStructural_gets.yields fun r t ht hr => ?_
    obtain ⟨pairs, goals, m, rfl, hstruct, -, hunified⟩ := hr
    exact hemit _ t ht (hstruct.steps hacyclic hunified hl hg)
  · refine subrelTrans_yields fun id f offset t ht hf hunified => ?_
    have hmem := Array.mem_of_getElem? hf
    obtain ⟨hfl, hfg⟩ := hreg f hmem
    rw [Term.rename_of_ground hfl.ground] at hunified
    rw [Term.rename_of_ground hfg.ground]
    have hlesser := eq_of_unified hacyclic hunified (by simp) hl.ground hfl.ground
    subst hlesser
    refine hemit _ t ht ⟨by simpa using ⟨hfg, hg⟩, fun hgoals => ?_, rfl⟩
    obtain ⟨i, hi⟩ := List.forall_mem_singleton.1 hgoals
    exact ⟨i + 1, .through hmem hi⟩
  · refine deferUnsolved_gets.yields fun r t ht hr => ?_
    rw [hr.1] at hlimits
    cases hlimits

theorem derivable_of_granted {r : Registry} {hyps : List Hypothesis} {σ : Subst} {w : List Pending}
    {goals : List Goal} {ps : List Proof} (hgoals : ∀ g ∈ goals, g.GroundOrder)
    (h : List.Forall₂ (fun g p => (groundOrder r).grants n hyps g p σ w) goals ps) :
    (∀ g ∈ goals, g.Derivable r) ∧ Proof.deferralsAll ps = [] := by
  induction h with
  | nil => exact ⟨by simp, rfl⟩
  | cons hp _ ih =>
    rw [List.forall_mem_cons] at hgoals
    obtain ⟨hderivable, hproof⟩ := hp hgoals.1
    obtain ⟨hrest, hproofs⟩ := ih hgoals.2
    refine ⟨List.forall_mem_cons.2 ⟨hderivable, hrest⟩, ?_⟩
    simp [Proof.deferralsAll, hproof, hproofs]

theorem keeps_groundOrder (hlib : T.Library) (hreg : T.registry.PlainGroundOrder)
    (hlimits : T.limits.deferUnsolved = false) {rule : Rule} (hrule : rule ∈ T.rules) :
    (groundOrder T.registry).Keeps T rule := by
  intro prove hprove ρ goal k s S hfits _ hinv hgoal hk
  cases goal with
  | related rel left right => exact hgoal.elim
  | subrel lesser greater =>
    refine ordering_steps (hlib.mem_ordering hrule hfits) hreg hlimits hgoal.1 hgoal.2 hinv
      fun r t ht hsteps => ?_
    refine hprove.proveAll (ht.acyclic hinv) hsteps.admitted fun ps u hu hinv' hps => ?_
    obtain ⟨hderivable, hproofs⟩ := derivable_of_granted hsteps.admitted hps
    refine hk _ u ⟨ht.trans hu, hinv', fun _ => ⟨hsteps.derivable hderivable, ?_⟩⟩
    rw [Proof.deferrals, Proof.deferralsAll_append, hsteps.outright, hproofs]
    rfl

namespace Engine

variable {E : Engine} {sol : Solution}

/-- A search for an inclusion between plain ground relations ends with a derivation, and with
nothing put off. -/
theorem search_derivable (hE : E.theory.Library) (hreg : E.theory.registry.PlainGroundOrder)
    (hlimits : E.theory.limits.deferUnsolved = false) (hgoal : goal.GroundOrder) (bound : Nat) :
    (E.search goal).Restores (E.start bound) fun p _ =>
      goal.Derivable E.theory.registry ∧ p.deferrals = [] :=
  Contract.met_solve (fun _ hrule => keeps_groundOrder hE hreg hlimits hrule) _ Subst.acyclic_empty
    hgoal fun _ _ ht => ht.grants hgoal

/-- What an engine says of an inclusion between plain ground relations that holds. -/
theorem derivable_of_holds (hE : E.theory.Library) (hreg : E.theory.registry.PlainGroundOrder)
    (hlimits : E.theory.limits.deferUnsolved = false) (hgoal : goal.GroundOrder)
    (h : (E.solve goal).1.result = .ok sol) (hholds : sol.holds = true) :
    sol.isSolved = true ∧ goal.Derivable E.theory.registry := by
  obtain ⟨bound, -, ⟨p, final, hrun, rfl⟩ | ⟨why, final, hrun, rfl⟩⟩ := solve_eq_ok h
  · obtain ⟨hderivable, hproof⟩ := (search_derivable hE hreg hlimits hgoal bound).of_success hrun
    have hcount : p.deferrals = List.range final.delayed.length :=
      (search_deferrals hE goal bound).of_success hrun
    rw [hproof, eq_comm, List.range_eq_nil, List.length_eq_zero_iff] at hcount
    exact ⟨by simp [hcount], hderivable⟩
  · cases hholds

/-- A goal that only a limit keeps from being proved is proved if no limit was met. -/
theorem holds_of_prevails (h : (E.solve goal).1.result = .ok sol)
    (hsure : ∀ bound, Prevails E.theory (E.search goal) (E.start bound))
    (hcause : ∀ why ∈ sol.failure?, why.isExhausted = false)
    (hsteps : sol.stats.steps < E.theory.limits.fuel) : sol.holds = true := by
  obtain ⟨bound, -, ⟨p, final, hrun, rfl⟩ | ⟨why, final, hrun, rfl⟩⟩ := solve_eq_ok h
  · simp [Solution.holds]
  · have hspent : E.theory.spent final.ledger = false := by
      simpa [Theory.spent, Solution.ofFailure, Solution.ofState] using hsteps
    have hexhausted := (hsure bound why final hrun).exhausted hspent
    rw [hcause why rfl] at hexhausted
    cases hexhausted

/-- If no limit was met, then an inclusion between plain ground relations is proved if and only if
it has a derivation. -/
theorem holds_iff_derivable (hE : E.theory.Library) (hrules : E.theory.Stocked)
    (hreg : E.theory.registry.PlainGroundOrder) (hlimits : E.theory.limits.deferUnsolved = false)
    (hgoal : goal.GroundOrder) (h : (E.solve goal).1.result = .ok sol)
    (hcause : ∀ why ∈ sol.failure?, why.isExhausted = false)
    (hsteps : sol.stats.steps < E.theory.limits.fuel) :
    sol.holds = true ↔ goal.Derivable E.theory.registry := by
  refine ⟨fun hholds => (derivable_of_holds hE hreg hlimits hgoal h hholds).2, fun hd => ?_⟩
  cases goal with
  | related rel left right => exact hgoal.elim
  | subrel lesser greater =>
    obtain ⟨n, hn⟩ := hd
    refine holds_of_prevails h (fun bound => Sure.prevails ?_) hcause hsteps
    exact hn.sure hE hrules hreg.groundOrder hgoal.1.ground hgoal.2.ground Subst.acyclic_empty
      (by simp [start]) fun _ _ _ => .pure

end Engine

end Monotonicity
