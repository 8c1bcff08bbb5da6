import Monotonicity.Proofs.Ground.Sound
import Monotonicity.Proofs.Query.Failure
import Monotonicity.Proofs.Query.Observation

/-!
# Two converses of a relation

Two converses cancel where a relation is looked at, but registered inclusions and placeholders are
compared with terms as they stand. So an engine does not in all places take a relation for the
converse of its converse. It does if all terms are simple and no registered inclusion starts from
the relation, since such a goal holds just if it has a derivation, and two converses make no
difference to derivations (`Goal.Doubled.provableFrom_iff`). If goals may be put off, then every
goal holds.
-/

namespace Monotonicity

open Search

variable {T : Theory} {ρ : Type} {s : State} {goal goal' : Goal} {room : Nat}
  {k : Proof → Search ρ}

/-! ## Goals that may be put off -/

/-- If goals may be put off, then only a limit makes one fail. -/
theorem solve_sure_of_defer (hT : T.Library) (hrules : T.Stocked)
    (hlimits : T.limits.deferUnsolved = true) (hacyclic : s.subst.Acyclic)
    (hgoal : goal.resolve s.subst = goal) (hnew : goal ∉ s.active)
    (hk : ∀ p t, s.Grown t → Sure T (k p) t) : Sure T (solve T room ρ goal k) s := by
  have hrule : ⟨"defer_unsolved", Rule.lastResort + 40, .any, .deferUnsolved⟩ ∈ Rule.standard := by
    simp [Rule.standard]
  refine solve_sure hT hacyclic (hrules _ hrule) hgoal hnew rfl hk fun room k' t ht hk' => ?_
  have htotal : (deferUnsolved T goal).Total := by
    simp only [deferUnsolved, hlimits, if_true]
    exact .bind .defer fun _ => .pure
  refine Prevails.after htotal fun r u hrun => ?_
  obtain ⟨hu, -, rfl, -⟩ := deferUnsolved_gets.of_success hrun
  exact (hk' _ u hu).prevails

/-! ## Two converses -/

theorem Term.Simple.flip {t : Term} (h : t.Simple) : t.flip.Simple where
  ground := ground_flip h.ground
  heads := by
    simpa [Term.flip, PlainHead, Reserved.flip, Reserved.dependent, Symbols.isMarked, Symbols.mark]
      using h.heads

/-- The second goal is the first one with two converses on one of its relations. -/
inductive Goal.Doubled : Goal → Goal → Prop
  | relation (rel left right : Term) :
      Doubled (.related rel left right) (.related rel.flip.flip left right)
  | lesser (lesser greater : Term) :
      Doubled (.subrel lesser greater) (.subrel lesser.flip.flip greater)
  | greater (lesser greater : Term) :
      Doubled (.subrel lesser greater) (.subrel lesser greater.flip.flip)

theorem Goal.Doubled.simple (h : goal.Doubled goal') (hgoal : ∀ t ∈ goal.terms, t.Simple) :
    ∀ t ∈ goal'.terms, t.Simple := by
  cases h <;> simp_all [Goal.terms, Term.Simple.flip]

/-- If the goals differ in the lesser relation of an inclusion, then no registered inclusion starts
from it, by either of its names. -/
def Registry.Unbiased (r : Registry) (goal goal' : Goal) : Prop :=
  ∀ lesser greater, goal = .subrel lesser greater → goal' = .subrel lesser.flip.flip greater →
    ∀ f ∈ r.inclusions, f.lesser ≠ lesser ∧ f.lesser ≠ lesser.flip.flip

/-- Two converses make no difference to whether there is a derivation. -/
theorem Goal.Doubled.provableFrom_iff {r : Registry} (h : goal.Doubled goal')
    (hr : r.Unbiased goal goal') : goal.ProvableFrom r [] ↔ goal'.ProvableFrom r [] := by
  cases h with
  | relation rel left right =>
    have hview := Term.view_flip_flip rel
    exact exists_congr fun n => ⟨fun h => h.congr hview.symm, fun h => h.congr hview⟩
  | lesser lesser greater =>
    have hview := Term.view_flip_flip lesser
    have hfree := hr lesser greater rfl rfl
    refine exists_congr fun n => ⟨fun h => ?_, fun h => ?_⟩
    · cases h with
      | subrel h => exact .subrel (h.congr_lesser (fun f hf => (hfree f hf).1) hview.symm)
    · cases h with
      | subrel h => exact .subrel (h.congr_lesser (fun f hf => (hfree f hf).2) hview)
  | greater lesser greater =>
    have hview := Term.view_flip_flip greater
    refine exists_congr fun n => ⟨fun h => ?_, fun h => ?_⟩
    · cases h with
      | subrel h => exact .subrel (h.congr_greater hview.symm)
    · cases h with
      | subrel h => exact .subrel (h.congr_greater hview)

namespace Engine

variable {E : Engine} {sol sol' : Solution}

/-- Two converses on one of the relations of a goal do not change whether it holds, if no limit is
met: always if goals may be put off, and else if all terms are simple and no registered inclusion
starts from the relation. -/
theorem two_converses_unseen (hE : ∀ rule ∈ E.theory.rules, rule ∈ Rule.standard)
    (hrules : E.theory.Stocked) (hdoubled : goal.Doubled goal')
    (hcond : E.theory.limits.deferUnsolved = false → E.theory.registry.Tidy ∧
      (∀ t ∈ goal.terms, t.Simple) ∧ E.theory.registry.Unbiased goal goal')
    (h : (E.solve goal).1.result = .ok sol) (h' : (E.solve goal').1.result = .ok sol')
    (hcause : ∀ why ∈ sol.failure?, why.isExhausted = false)
    (hcause' : ∀ why ∈ sol'.failure?, why.isExhausted = false)
    (hsteps : sol.stats.steps < E.theory.limits.fuel)
    (hsteps' : sol'.stats.steps < E.theory.limits.fuel) : sol.holds = sol'.holds := by
  have hlibrary : E.theory.Library := fun rule hrule => .inl (hE rule hrule)
  cases hlimits : E.theory.limits.deferUnsolved with
  | true =>
    have hsure (goal : Goal) (bound : Nat) : Prevails E.theory (E.search goal) (E.start bound) :=
      (solve_sure_of_defer hlibrary hrules hlimits Subst.acyclic_empty (resolve_empty goal)
        (by simp [start]) fun _ _ _ => .pure).prevails
    rw [holds_of_prevails h (hsure goal) hcause hsteps,
      holds_of_prevails h' (hsure goal') hcause' hsteps']
  | false =>
    obtain ⟨hreg, hgoal, hunbiased⟩ := hcond hlimits
    rw [Bool.eq_iff_iff, holds_iff_provable hE hrules hreg hlimits hgoal h hcause hsteps,
      holds_iff_provable hE hrules hreg hlimits (hdoubled.simple hgoal) h' hcause' hsteps']
    exact hdoubled.provableFrom_iff hunbiased

/-- With `lt` included in `le`, functions from `le` to `lt` are functions from `lt` to `le`, and two
converses on the former do not change that. -/
theorem withOrder_two_converses :
    ∃ sol sol', (withOrder.solve (.subrel (.arrow (.const "le") (.const "lt"))
        (.arrow (.const "lt") (.const "le")))).1.result = .ok sol ∧
      (withOrder.solve (.subrel (Term.arrow (.const "le") (.const "lt")).flip.flip
        (.arrow (.const "lt") (.const "le")))).1.result = .ok sol' ∧
      sol.holds = true ∧ sol'.holds = true := by
  have hplain : (withOrder.solve (.subrel (.arrow (.const "le") (.const "lt"))
      (.arrow (.const "lt") (.const "le")))).1.result.toOption.any
        (fun sol => sol.holds && !sol.failure?.any Failure.isExhausted &&
          decide (sol.stats.steps < 100000)) = true := by
    decide +kernel
  have hdoubled : (withOrder.solve (.subrel (Term.arrow (.const "le") (.const "lt")).flip.flip
      (.arrow (.const "lt") (.const "le")))).1.result.toOption.any
        (fun sol => !sol.failure?.any Failure.isExhausted &&
          decide (sol.stats.steps < 100000)) = true := by
    decide +kernel
  obtain ⟨sol, hsol, hplain⟩ := exists_ok_of_any hplain
  obtain ⟨sol', hsol', hdoubled⟩ := exists_ok_of_any hdoubled
  simp only [Bool.and_eq_true, decide_eq_true_eq, Bool.not_eq_true', Option.any_eq_false]
    at hplain hdoubled
  obtain ⟨⟨hholds, hcause⟩, hsteps⟩ := hplain
  obtain ⟨hcause', hsteps'⟩ := hdoubled
  have hsame := two_converses_unseen (E := withOrder)
    (fun rule hrule => by simpa using mem_insertAll.1 hrule)
    (fun rule hrule => mem_insertAll.2 (.inl hrule)) (.lesser _ _)
    (fun _ => ⟨⟨⟨by decide +kernel, by decide +kernel⟩, fun _ _ => rfl⟩, by decide +kernel, ?_⟩)
    hsol hsol' hcause hcause' hsteps hsteps'
  · exact ⟨sol, sol', hsol, hsol', hholds, hsame ▸ hholds⟩
  · rintro lesser greater ⟨⟩ -
    decide +kernel

/-- An engine that was told that `R` is included in `S`. -/
def withStep : Engine :=
  { Engine.new {} with
    theory := { Theory.standard {} with
      registry := { inclusions := #[⟨.const "R", .const "S", .const "RS", 0⟩] } } }

/-- The first goal holds and the second one does not, and no limit is the reason. -/
def Separates (E : Engine) (goal goal' : Goal) : Prop :=
  ∃ sol sol', (E.solve goal).1.result = .ok sol ∧ (E.solve goal').1.result = .ok sol' ∧
    sol.holds = true ∧ sol'.holds = false ∧ (∀ why ∈ sol'.failure?, why.isExhausted = false) ∧
    sol.stats.steps < E.theory.limits.fuel ∧ sol'.stats.steps < E.theory.limits.fuel

theorem separates_of_any
    (h : (E.solve goal).1.result.toOption.any
      (fun sol => sol.holds && decide (sol.stats.steps < E.theory.limits.fuel)) = true)
    (h' : (E.solve goal').1.result.toOption.any
      (fun sol => !sol.holds && !sol.failure?.any Failure.isExhausted &&
        decide (sol.stats.steps < E.theory.limits.fuel)) = true) : E.Separates goal goal' := by
  obtain ⟨sol, hsol, h⟩ := exists_ok_of_any h
  obtain ⟨sol', hsol', h'⟩ := exists_ok_of_any h'
  simp only [Bool.and_eq_true, decide_eq_true_eq, Bool.not_eq_true', Option.any_eq_false] at h h'
  exact ⟨sol, sol', hsol, hsol', h.1, h'.1.1, h'.1.2, h.2, h'.2⟩

/-- The inclusion is not found from the converse of the converse of `R`; and some relation holds
between `a` and itself, but no converse of a converse is found to. -/
theorem withStep_sees_two_converses :
    withStep.Separates (.subrel (.const "R") (.const "S"))
      (.subrel (Term.const "R").flip.flip (.const "S")) ∧
    withStep.Separates (.related (.var 0) (.const "a") (.const "a"))
      (.related (Term.var 0).flip.flip (.const "a") (.const "a")) :=
  ⟨separates_of_any (by decide +kernel) (by decide +kernel),
    separates_of_any (by decide +kernel) (by decide +kernel)⟩

end Engine

end Monotonicity
