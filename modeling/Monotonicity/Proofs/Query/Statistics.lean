import Monotonicity.Proofs.Account.Library
import Monotonicity.Proofs.Account.Transport
import Monotonicity.Proofs.Query.Deferral

/-!
# The statistics of a query

The statistics of a solution count the rule applications that the search made and those that it took
back. The applications that are left are the steps of the proof: the tally that is read off the
trace comes out as the list of their depths. A transport has a root of its own besides.

The counts keep within the limits of the theory at every moment of a run. The search ends by itself:
written with a test on the depth in place of the room, it goes down no further than the limits
allow, whatever there is below.
-/

namespace Monotonicity

open Search

/-- The depths of the applications that are open after some events. -/
def openAfter (events : List Event) : List Nat := (Tally.along {} events).opened

/-- At every moment of the run the state keeps within the limits, and no more applications are open,
each in the continuation of the one before, than there is fuel for. -/
def Search.RunsWithin {α : Type} (T : Theory) (m : Search α) (s : State) : Prop :=
  ∀ before e after, m.trace s = before ++ e :: after →
    e.now.InBounds T ∧ (openAfter (before ++ [e])).length ≤ T.limits.fuel

theorem Stats.isSome_kept? {s : Stats} (h : s.backtracks ≤ s.steps) : s.kept?.isSome = true := by
  unfold Stats.kept?
  split
  · rfl
  · rw [if_neg (Nat.not_lt.2 h)]
    rfl

/-- The statistics keep within the limits, with no more obligations pending than were put off, and
a share of the steps was kept. -/
structure Solution.WithinLimits (limits : Limits) (sol : Solution) : Prop where
  steps : sol.stats.steps ≤ limits.fuel
  backtracks : sol.stats.backtracks ≤ sol.stats.steps
  maxDepth : sol.stats.maxDepth ≤ limits.maxDepth
  pending : sol.pending.length ≤ sol.stats.deferrals
  kept : sol.stats.kept?.isSome = true

theorem State.InBounds.withinLimits {T : Theory} {s : State} {sol : Solution}
    (hs : s.InBounds T) (hstats : sol.stats = s.ledger.stats)
    (hpending : sol.pending.length ≤ s.delayed.length) : sol.WithinLimits T.limits := by
  obtain ⟨hsteps, hbacktracks, hmaxDepth, -, hdeferrals⟩ := hs
  rw [← hstats] at hsteps hbacktracks hmaxDepth hdeferrals
  exact ⟨hsteps, hbacktracks, hmaxDepth, hpending.trans hdeferrals, Stats.isSome_kept? hbacktracks⟩

namespace Engine

variable {E : Engine} {α : Type} {m m' : Search α} {S : α → List Nat → State → Prop}
  {bound : Nat} {final : State}

/-- The search for a proof of a goal, with the solver and with so many levels of it. -/
theorem search_settles (hE : E.theory.Library) (goal : Goal) (deep : Prover) {levels : Nat}
    (hlevels : E.theory.limits.maxDepth < levels) :
    Settles E.theory [] 0 (E.search goal) (solveLevels E.theory deep levels Proof goal pure)
      fun p opened _ => opened = p.levels 1 := by
  refine hE.solve_accounts deep hlevels fun p n s hs ho => ?_
  exact .done (h := []) rfl rfl trivial ⟨hs, by simpa using ho⟩

theorem transport_settled (hE : E.theory.Library) (lifted edge : Nat) (f e : Fact)
    (c : Computation) (deep : Prover) {levels : Nat} (hlevels : E.theory.limits.maxDepth < levels) :
    Settles E.theory [] 0
      (Search.transport E.theory (Search.solve E.theory E.theory.limits.maxDepth) bound lifted edge
        f e c)
      (Search.transport E.theory (solveLevels E.theory deep levels) bound lifted edge f e c)
      (Transported.Settled bound [] 0) :=
  transport_settles (hE.solve_accounts deep hlevels)

/-! ## From the start of a query -/

theorem balances_start (E : Engine) (bound : Nat) :
    ({} : Tally).Balances E.theory 0 (E.start bound) where
  stats := rfl
  balance := rfl
  bounds := ⟨Nat.zero_le _, Nat.le_refl _, Nat.zero_le _, Nat.zero_le _, Nat.le_refl _⟩
  depth := rfl

theorem counts_of_settles (h : Settles E.theory [] 0 m m' S) (bound : Nat) :
    Counts E.theory m m' {} (E.start bound)
      (fun n t => n.Balances E.theory 0 t ∧ n.opened = [])
      fun a n t => n.Balances E.theory 0 t ∧ S a n.opened t.bare :=
  h {} (E.start bound) (balances_start E bound) rfl

theorem final_of_success (h : Settles E.theory [] 0 m m' S) {a : α}
    (hrun : m.run (E.start bound) = .success a final) :
    final.InBounds E.theory ∧ final.ledger.stats.steps = final.ledger.stats.backtracks +
      (openAfter (m.trace (E.start bound))).length ∧
      S a (openAfter (m.trace (E.start bound))) final.bare := by
  obtain ⟨hbalances, hS⟩ := (counts_of_settles h bound).ends.of_success hrun
  exact ⟨hbalances.bounds, hbalances.balance, hS⟩

theorem final_of_failure (h : Settles E.theory [] 0 m m' S) {why : Failure}
    (hrun : m.run (E.start bound) = .failure why final) : final.InBounds E.theory :=
  ((counts_of_settles h bound).ends.of_failure hrun).1.bounds

/-! ## Every step that is not taken back -/

/-- The rule applications of `try_rules` that were not taken back are the steps of the proof that it
found: there are as many, and in the order in which they were made they have the depths of the
steps, each before those of its premises. For a transport these are all steps but the root. -/
theorem steps_accounted (hE : E.theory.Library) :
    (∀ goal sol p, (E.solve goal).1.result = .ok sol → sol.proof? = some p →
      sol.stats.steps = sol.stats.backtracks + p.steps ∧
      ∃ bound, schematic? goal.terms = some bound ∧
        openAfter ((E.search goal).trace (E.start bound)) = p.levels 1) ∧
    ∀ lifted edge c r, (E.transport lifted edge c).1.result = .ok (.ok r) →
      ∃ p f e bound, r.residual.proof? = some p ∧
        r.residual.stats.steps + 1 = r.residual.stats.backtracks + p.steps ∧
        E.theory.registry.facts[lifted]? = some f ∧ E.theory.registry.facts[edge]? = some e ∧
        schematic? [c.term, c.value] = some bound ∧
        0 :: openAfter ((Search.transport E.theory (Search.solve E.theory
          E.theory.limits.maxDepth) bound lifted edge f e c).trace (E.start bound)) =
            p.levels 0 := by
  have hlevels := Nat.lt_succ_self E.theory.limits.maxDepth
  constructor
  · intro goal sol p h hproof
    obtain ⟨bound, hbound, ⟨q, final, hrun, rfl⟩ | ⟨why, final, -, rfl⟩⟩ := solve_eq_ok h
    · obtain rfl : q = p := by simpa using hproof
      obtain ⟨-, hsteps, hopened⟩ :=
        final_of_success (search_settles hE goal (fun _ _ _ => exhausted) hlevels) hrun
      rw [hopened, Proof.length_levels] at hsteps
      exact ⟨hsteps, bound, hbound, hopened⟩
    · cases hproof
  · intro lifted edge c r h
    obtain ⟨f, e, bound, final, hf, he, hbound, hrun⟩ := transport_eq_ok h
    obtain ⟨-, hsteps, summary, premises, hresidual, hopened⟩ := final_of_success
      (transport_settled hE lifted edge f e c (fun _ _ _ => exhausted) hlevels) hrun
    rw [List.nil_append] at hopened
    rw [hopened, Proof.length_levelsAll] at hsteps
    refine ⟨.step "transport" premises, f, e, bound, ?_, ?_, hf, he, hbound, ?_⟩
    · rw [hresidual, Solution.proof?_ofProof]
    · have hstats : r.residual.stats = final.ledger.stats := by
        rw [hresidual]
        rfl
      rw [hstats, Proof.steps]
      omega
    · rw [Proof.levels, hopened]

/-- Two obligations are put off in one proof. Of the ten applications that the search made, three
are left. In the transport only one is left of four, besides the root. -/
theorem withOption_steps_accounted :
    (∃ sol p, (withOption.solve (.related (.const "le") (.app "h" [.const "c", .const "d"])
        (.app "h" [.const "d", .const "c"]))).1.result = .ok sol ∧ sol.proof? = some p ∧
      p.steps = 3 ∧ sol.stats.backtracks = 7 ∧ sol.stats.steps = 10 ∧
      ∃ bound, openAfter ((withOption.search (.related (.const "le")
        (.app "h" [.const "c", .const "d"]) (.app "h" [.const "d", .const "c"]))).trace
          (withOption.start bound)) = [1, 2, 2]) ∧
    ∃ r p, (withOption.transport 1 2 ⟨.app "f" [.const "a"],
        .app "Some" [.const "x"]⟩).1.result = .ok (.ok r) ∧ r.residual.proof? = some p ∧
      r.residual.stats.backtracks = 3 ∧ r.residual.stats.steps + 1 = 3 + p.steps := by
  have hlibrary : withOption.theory.Library := fun rule hrule =>
    (library_standard { deferUnsolved := true }).addRelators rule hrule
  obtain ⟨hsolve, htransport⟩ := steps_accounted hlibrary
  constructor
  · have hfound : (withOption.solve (.related (.const "le") (.app "h" [.const "c", .const "d"])
        (.app "h" [.const "d", .const "c"]))).1.result.toOption.any (fun sol =>
          sol.proof?.any (fun p => decide (p.steps = 3 ∧ p.levels 1 = [1, 2, 2])) &&
            decide (sol.stats.backtracks = 7)) = true := by
      decide +kernel
    obtain ⟨sol, hsol, hfound⟩ := exists_ok_of_any hfound
    simp only [Bool.and_eq_true, decide_eq_true_eq, Option.any_eq_true] at hfound
    obtain ⟨⟨p, hp, hcount, hlevels⟩, hbacktracks⟩ := hfound
    obtain ⟨hsteps, bound, -, hopened⟩ := hsolve _ sol p hsol hp
    rw [hbacktracks, hcount] at hsteps
    rw [hlevels] at hopened
    exact ⟨sol, p, hsol, hp, hcount, hbacktracks, hsteps, bound, hopened⟩
  · have hfound : (withOption.transport 1 2 ⟨.app "f" [.const "a"],
        .app "Some" [.const "x"]⟩).1.result.toOption.any (fun answer => answer.toOption.any
          fun r => decide (r.residual.stats.backtracks = 3)) = true := by
      decide +kernel
    obtain ⟨answer, hanswer, hfound⟩ := exists_ok_of_any hfound
    obtain ⟨r, rfl, hbacktracks⟩ := exists_ok_of_any hfound
    obtain ⟨p, -, -, -, hp, hsteps, -⟩ := htransport _ _ _ r hanswer
    rw [of_decide_eq_true hbacktracks] at hsteps
    exact ⟨r, p, hanswer, hp, of_decide_eq_true hbacktracks, hsteps⟩

/-! ## Limits -/

theorem runsWithin_of_settles (h : Settles E.theory [] 0 m m' S) (bound : Nat) :
    m.RunsWithin E.theory (E.start bound) := by
  intro before e after htrace
  have hevents := (counts_of_settles h bound).events
  rw [htrace] at hevents
  obtain ⟨-, hbalance, hbounds, -⟩ := hevents.balances
  have hsteps := hbounds.steps
  refine ⟨hbounds, ?_⟩
  unfold openAfter
  omega

/-- The search ends by itself, within its limits. The goals in progress are a chain that is no
longer than `max_depth`: a solver that goes down so many levels, and below these does anything at
all, gives the same answers. The applications in progress are no more than there is fuel for. These
limits hold at every moment of a run, and hence of the statistics of all solutions. -/
theorem search_within_limits (hE : E.theory.Library) :
    (∀ deep levels, E.theory.limits.maxDepth < levels →
      (∀ goal, E.solveBy (solveLevels E.theory deep levels) goal = E.solve goal) ∧
      ∀ lifted edge c, E.transportBy (solveLevels E.theory deep levels) lifted edge c =
        E.transport lifted edge c) ∧
    (∀ goal bound, (E.search goal).RunsWithin E.theory (E.start bound)) ∧
    (∀ lifted edge f e c bound,
      (Search.transport E.theory (Search.solve E.theory E.theory.limits.maxDepth) bound lifted edge
        f e c).RunsWithin E.theory (E.start bound)) ∧
    (∀ goal sol, (E.solve goal).1.result = .ok sol → sol.WithinLimits E.theory.limits) ∧
    ∀ lifted edge c r, (E.transport lifted edge c).1.result = .ok (.ok r) →
      r.residual.WithinLimits E.theory.limits := by
  have hlast := Nat.lt_succ_self E.theory.limits.maxDepth
  refine ⟨fun deep levels hlevels => ⟨fun goal => ?_, fun lifted edge c => ?_⟩,
    fun goal bound => ?_, fun lifted edge f e c bound => ?_, fun goal sol h => ?_,
    fun lifted edge c r h => ?_⟩
  · rw [← solveBy_solve]
    exact query_congr (fun _ _ _ => rfl) fun bound _ => congrArg Outcome.bare
      (counts_of_settles (search_settles hE goal deep hlevels) bound).agrees
  · rw [← transportBy_solve]
    unfold transportBy
    cases E.theory.registry.facts[lifted]? with
    | none => rfl
    | some f =>
      cases E.theory.registry.facts[edge]? with
      | none => rfl
      | some e =>
        exact query_congr (fun _ _ _ => rfl) fun bound _ => congrArg Outcome.bare
          (counts_of_settles (transport_settled hE lifted edge f e c deep hlevels) bound).agrees
  · exact runsWithin_of_settles (search_settles hE goal (fun _ _ _ => exhausted) hlast) bound
  · exact runsWithin_of_settles
      (transport_settled hE lifted edge f e c (fun _ _ _ => exhausted) hlast) bound
  · have hsettles := search_settles hE goal (fun _ _ _ => exhausted) hlast
    obtain ⟨bound, -, ⟨p, final, hrun, rfl⟩ | ⟨why, final, hrun, rfl⟩⟩ := solve_eq_ok h
    · obtain ⟨hbounds, -⟩ := final_of_success hsettles hrun
      refine hbounds.withinLimits rfl ?_
      rw [Solution.pending_ofProof, List.length_map]
    · exact (final_of_failure hsettles hrun).withinLimits rfl (Nat.zero_le _)
  · obtain ⟨f, e, bound, final, -, -, -, hrun⟩ := transport_eq_ok h
    obtain ⟨hbounds, -, summary, premises, hresidual, -⟩ := final_of_success
      (transport_settled hE lifted edge f e c (fun _ _ _ => exhausted) hlast) hrun
    rw [hresidual]
    refine hbounds.withinLimits rfl ?_
    rw [Solution.pending_ofProof, List.length_map]
    exact Nat.le_refl _

/-- An engine that was told of two inclusions in a circle, and that allows two goals in progress. -/
def withCircle : Engine :=
  { Engine.new { maxDepth := 2 } with
    theory := { Theory.standard { maxDepth := 2 } with
      registry :=
        { inclusions := #[⟨.const "a", .const "b", .const "ab", 0⟩,
            ⟨.const "b", .const "a", .const "ba", 0⟩] } } }

/-- The search goes round the circle as far as it may. Three levels of the solver are enough, though
below them every goal is accepted. Two are not: the goal at the limit is accepted then. -/
theorem withCircle_within_limits :
    (∃ sol, (withCircle.solveBy (solveLevels withCircle.theory
        (fun _ _ accept => accept (.deferred 0)) 3)
        (.subrel (.const "a") (.const "e"))).1.result = .ok sol ∧
      sol.isFailed = true ∧ sol.WithinLimits withCircle.theory.limits) ∧
    ∃ sol, (withCircle.solveBy (solveLevels withCircle.theory
        (fun _ _ accept => accept (.deferred 0)) 2)
        (.subrel (.const "a") (.const "e"))).1.result = .ok sol ∧ sol.isFailed = false := by
  have hlibrary : withCircle.theory.Library := library_standard { maxDepth := 2 }
  obtain ⟨hlevels, -, -, hsolve, -⟩ := search_within_limits hlibrary
  constructor
  · have hfailed : (withCircle.solve (.subrel (.const "a") (.const "e"))).1.result.toOption.any
        (·.isFailed) = true := by
      decide +kernel
    obtain ⟨sol, hsol, hfailed⟩ := exists_ok_of_any hfailed
    refine ⟨sol, ?_, hfailed, hsolve _ sol hsol⟩
    rw [(hlevels _ 3 (by decide)).1, hsol]
  · have haccepted : (withCircle.solveBy (solveLevels withCircle.theory
        (fun _ _ accept => accept (.deferred 0)) 2)
        (.subrel (.const "a") (.const "e"))).1.result.toOption.any (!·.isFailed) = true := by
      decide +kernel
    obtain ⟨sol, hsol, haccepted⟩ := exists_ok_of_any haccepted
    exact ⟨sol, hsol, by simpa using haccepted⟩

end Engine

end Monotonicity
