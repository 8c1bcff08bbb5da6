import Monotonicity.Proofs.Limit.Library
import Monotonicity.Proofs.Query.Observation

/-!
# More depth

A goal that is refused for want of room is never overlooked: if a query fails with steps left, and
for another cause than a limit, then there was room for every goal. This is said in two ways. The
goals for which there is no room may be left to any other prover, and the run is the same, so no
goal was. And the answer is the same with more room.
-/

namespace Monotonicity

open Search

/-- The theory with another limit on the depth. -/
def Theory.deepen (T : Theory) (depth : Nat) : Theory :=
  { T with limits := { T.limits with maxDepth := depth } }

/-! ## The limit on the depth is not looked at -/

section Deepen

variable {T : Theory} {depth : Nat} {α ρ : Type} {goal : Goal} {prove : Prover}

theorem tryEach_deepen (run : α → Search ρ) (otherwise : Option Failure → Search ρ) (as : List α)
    (best : Option Failure) :
    tryEach (T.deepen depth) run otherwise as best = tryEach T run otherwise as best := by
  induction as generalizing best with
  | nil => rfl
  | cons a as ih =>
    simp only [tryEach, ih]
    rfl

theorem eachInclusion_deepen (run : Nat → Term → Term → Search ρ) :
    eachInclusion (T.deepen depth) goal run = eachInclusion T goal run :=
  tryEach_deepen ..

theorem factCandidates_deepen (side : Side) (batch : Batch) (ids : List Nat) :
    factCandidates (T.deepen depth) side batch ids = factCandidates T side batch ids := by
  induction ids with
  | nil => rfl
  | cons id ids ih =>
    simp only [factCandidates, ih]
    rfl

theorem tryBatches_deepen (side : Side) (head : String) (arity : Nat)
    (emit : Reduction → Search ρ) (batches : List Batch) (best : Option Failure) :
    tryBatches (T.deepen depth) prove goal side head arity emit batches best =
      tryBatches T prove goal side head arity emit batches best := by
  induction batches generalizing best with
  | nil => rfl
  | cons batch batches ih =>
    simp only [tryBatches, probe, ih, tryEach_deepen, factCandidates_deepen]
    rfl

/-- Only scripts can ask for the limits. -/
theorem Theory.Library.run_deepen (h : T.Library) {rule : Rule} (hrule : rule ∈ T.rules)
    (emit : Reduction → Search ρ) :
    rule.method.run (T.deepen depth) prove rule.name goal emit =
      rule.method.run T prove rule.name goal emit := by
  cases hmethod : rule.method with
  | subrelFact =>
    cases goal with
    | related rel left right => rfl
    | subrel lesser greater => simp only [Method.run, subrelFact, eachInclusion_deepen]
  | subrelTrans =>
    cases goal with
    | related rel left right => rfl
    | subrel lesser greater => simp only [Method.run, subrelTrans, eachInclusion_deepen]
  | monotone side =>
    cases goal with
    | subrel lesser greater => rfl
    | related rel left right =>
      simp only [Method.run, monotone, tryBatches_deepen]
      rfl
  | script locals body => exact absurd hmethod ((h.unscripted hrule).1 locals body)
  | choice locals alternatives => exact absurd hmethod ((h.unscripted hrule).2 locals alternatives)
  | _ => rfl

theorem tryRules_deepen (h : T.Library) (k : Proof → Search ρ) {rules : List Rule}
    (hrules : ∀ rule ∈ rules, rule ∈ T.rules) (best : Option Failure) :
    tryRules (T.deepen depth) prove goal k rules best = tryRules T prove goal k rules best := by
  induction rules generalizing best with
  | nil => rfl
  | cons rule rules ih =>
    rw [List.forall_mem_cons] at hrules
    simp only [tryRules, applyRule, h.run_deepen hrules.1, ih hrules.2]
    rfl

/-- With so much room, the solver does not depend on the limit. -/
theorem solve_deepen (h : T.Library) (room : Nat) : solve (T.deepen depth) room = solve T room := by
  induction room with
  | zero => rfl
  | succ room ih =>
    funext ρ goal k
    simp only [solve, ih, solveResolved]
    have hrules : (T.deepen depth).rules = T.rules := rfl
    simp only [hrules, tryRules_deepen h _ fun _ => id]
    rfl

end Deepen

namespace Engine

variable {E : Engine} {goal : Goal} {sol : Solution} {why : Failure}

/-- The engine with another limit on the depth. -/
def deepen (E : Engine) (depth : Nat) : Engine := { E with theory := E.theory.deepen depth }

theorem query_deepen {α β : Type} {terms : List Term} {search : Nat → Search α}
    {accept : Nat → α → State → β} {refuse : Nat → Failure → State → β} (depth : Nat) :
    ((E.deepen depth).query terms search accept refuse).1 =
      (E.query terms search accept refuse).1 := by
  unfold query
  cases schematic? terms with
  | none => rfl
  | some bound => rfl

/-- A search that failed by no limit fails in the same way whatever is done with the goals for which
it has no room. -/
theorem search_upheld (hE : E.theory.Library) {s t : State}
    (hrun : (E.search goal).run s = .failure why t) (hstop : ¬ E.theory.Stopped why t)
    (deep : Prover) :
    (solveOver E.theory deep E.theory.limits.maxDepth Proof goal pure).run s = .failure why t :=
  (solve_upheld hE.candid deep _ fun _ => .refl .pure).same s why t hrun hstop

/-- If a query fails with steps left, and not because a limit was reached, then no goal was refused
for want of room: the run is the same whatever is done with such goals, and the answer is the same
with more room. -/
theorem no_refusal_for_depth (hE : E.theory.Library) (h : (E.solve goal).1.result = .ok sol)
    (hwhy : sol.failure? = some why) (hcause : why.isExhausted = false)
    (hsteps : sol.stats.steps < E.theory.limits.fuel) :
    (∀ deep : Prover,
      E.solveBy (solveOver E.theory deep E.theory.limits.maxDepth) goal = E.solve goal) ∧
    ∀ depth, E.theory.limits.maxDepth ≤ depth →
      ((E.deepen depth).solve goal).1 = (E.solve goal).1 := by
  obtain ⟨bound, hbound, ⟨p, final, -, rfl⟩ | ⟨why', final, hrun, rfl⟩⟩ := solve_eq_ok h
  · -- a proof has no cause of failure
    cases hdelayed : final.delayed.isEmpty <;>
      simp [Solution.ofProof, Solution.ofState, Solution.failure?, hdelayed] at hwhy
  · obtain rfl : why' = why := by
      simpa [Solution.ofFailure, Solution.ofState, Solution.failure?] using hwhy
    have hstop : ¬ E.theory.Stopped why' final := by
      rintro (hexhausted | hspent)
      · rw [hcause] at hexhausted
        cases hexhausted
      · have hfuel : E.theory.limits.fuel ≤ final.ledger.stats.steps := by
          simpa [Theory.spent] using hspent
        simp only [Solution.ofFailure, Solution.ofState] at hsteps
        omega
    have hover (deep : Prover) :
        E.solveBy (solveOver E.theory deep E.theory.limits.maxDepth) goal = E.solve goal := by
      refine query_congr (fun _ _ _ => rfl) fun bound' hbound' => ?_
      obtain rfl : bound = bound' := by
        rw [hbound] at hbound'
        exact Option.some.inj hbound'
      rw [search_upheld hE hrun hstop deep, hrun]
    refine ⟨hover, fun depth hdepth => ?_⟩
    -- the additional room is what the goals are left to for which there is none
    obtain ⟨more, rfl⟩ := Nat.exists_eq_add_of_le hdepth
    have hmore : (E.deepen (E.theory.limits.maxDepth + more)).search goal =
        solveOver E.theory (Search.solve E.theory more) E.theory.limits.maxDepth Proof goal
          pure := by
      rw [← solve_add, ← solve_deepen hE]
      rfl
    rw [← hover (Search.solve E.theory more)]
    unfold solve solveBy
    rw [query_deepen, hmore]

/-- No `f ?0` is below `f a`. That does not change if all goals are taken for proved for which there
is no room, nor with ten times the room. -/
theorem withMonotone_no_refusal :
    ∃ sol why, (withMonotone.solve (.related (.const "le") (.app "f" [.var 0])
        (.app "f" [.const "a"]))).1.result = .ok sol ∧ sol.failure? = some why ∧
      why.isExhausted = false ∧
      (withMonotone.solveBy (solveOver withMonotone.theory (fun _ _ k => k (.deferred 0)) 64)
        (.related (.const "le") (.app "f" [.var 0]) (.app "f" [.const "a"]))).1.result = .ok sol ∧
      ((withMonotone.deepen 640).solve (.related (.const "le") (.app "f" [.var 0])
        (.app "f" [.const "a"]))).1.result = .ok sol := by
  have hfailed : (withMonotone.solve (.related (.const "le") (.app "f" [.var 0])
      (.app "f" [.const "a"]))).1.result.toOption.any
        (fun sol => sol.failure?.any (fun why => !why.isExhausted) &&
          decide (sol.stats.steps < 100000)) = true := by
    decide +kernel
  obtain ⟨sol, hsol, hfailed⟩ := exists_ok_of_any hfailed
  simp only [Bool.and_eq_true, decide_eq_true_eq, Option.any_eq_true, Bool.not_eq_true'] at hfailed
  obtain ⟨⟨why, hwhy, hcause⟩, hsteps⟩ := hfailed
  obtain ⟨hover, hmore⟩ := no_refusal_for_depth (library_standard {}) hsol hwhy hcause hsteps
  refine ⟨sol, why, hsol, hwhy, hcause, ?_, ?_⟩
  · exact (congrArg (·.1.result) (hover _)).trans hsol
  · rw [hmore 640 (by decide), hsol]

end Engine

end Monotonicity
