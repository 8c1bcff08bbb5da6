import Monotonicity.Proofs.Account.Search
import Monotonicity.Search.Solver

/-!
# The solver keeps accounts

A prover that is asked for a goal at depth `d` opens the steps of the proof that it hands on, in the
order of `Proof.levels`, and they stay open while the continuation runs. So the accounts of a rule
are settled if each proof that it gets from the prover becomes a premise of its step once, in the
order in which they were found: this is what is left to be shown of a method (`Method.Accounts`).

Recursion in the solver is bounded by the room that it is given. `solveOnce` has the test on the
depth instead, and `solve_accounts` says that the two come to the same: with more levels of
`solveOnce` than goals may be in progress, what stands below the levels is never asked.
-/

namespace Monotonicity

variable {ρ : Type} {T : Theory} {o : List Nat} {d : Nat} {goal : Goal}

/-! ## Provers -/

open Search Proof

/-- Asked at depth `d`, the prover settles its accounts, with the steps of a proof that it hands on
open while the continuation runs. The second prover ends as the first does. -/
def Prover.Accounts (T : Theory) (d : Nat) (prove prove' : Prover) : Prop :=
  ∀ ⦃ρ : Type⦄ ⦃o : List Nat⦄ ⦃goal : Goal⦄ ⦃k k' : Proof → Search ρ⦄
    ⦃S : ρ → List Nat → State → Prop⦄,
    (∀ p, Settles T (o ++ p.levels (d + 1)) d (k p) (k' p) S) →
    Settles T o d (prove ρ goal k) (prove' ρ goal k') S

namespace Prover.Accounts

variable {prove prove' : Prover} {k k' : Proof → Search ρ} {S : ρ → List Nat → State → Prop}

theorem proveAssuming (hprove : Prover.Accounts T d prove prove') {further : List Hypothesis}
    (hk : ∀ p, Settles T (o ++ p.levels (d + 1)) d (k p) (k' p) S) :
    Settles T o d (proveAssuming prove further goal k)
      (Search.proveAssuming prove' further goal k') S :=
  .bind .hyps fun _ _ => .underHyps (hprove fun p => (hk p).withdrawing)

theorem proveAll (hprove : Prover.Accounts T d prove prove') {k k' : List Proof → Search ρ}
    {goals : List Goal} {done : List Proof}
    (hk : ∀ ps, Settles T (o ++ levelsAll (d + 1) ps) d (k ps) (k' ps) S) :
    Settles T (o ++ levelsAll (d + 1) done) d (proveAll prove k goals done)
      (Search.proveAll prove' k' goals done) S := by
  induction goals generalizing done with
  | nil => exact hk done
  | cons goal goals ih =>
    refine hprove fun p => ?_
    rw [← append_levelsAll_snoc]
    exact ih

theorem bridging (hprove : Prover.Accounts T d prove prove')
    {onFailure : Bool → Failure → Search ρ}
    (hk : ∀ p, Settles T (o ++ p.levels (d + 1)) d (k p) (k' p) S)
    (hfailure : ∀ crossed why, Settles T o d (onFailure crossed why) (onFailure crossed why) S) :
    Settles T o d (bridging (prove ρ goal) k onFailure)
      (Search.bridging (prove' ρ goal) k' onFailure) S := by
  have hbegin : Quiet T beginBridge :=
    .bind .ledger fun _ _ => .bind (.enterLedger_of_stats fun _ => rfl) fun _ _ => .pure trivial
  refine .bind hbegin fun number _ => .recover (hprove fun p => ?_) fun why => ?_
  · exact .bind (.enterLedger_of_stats fun _ => rfl) fun _ _ => hk p
  · exact .bind .ledger fun l _ => .bind (.enterLedger_of_stats fun _ => rfl) fun _ _ =>
      hfailure _ why

end Prover.Accounts

/-! ## The solver -/

/-- One application of the method settles its accounts, given a prover that does. What it emits
comes with premises whose steps are open by then. -/
def Method.Accounts (T : Theory) (method : Method) : Prop :=
  ∀ ⦃d : Nat⦄ ⦃prove prove' : Prover⦄, Prover.Accounts T d prove prove' →
    ∀ ⦃ρ : Type⦄ ⦃o : List Nat⦄ ⦃rule : String⦄ ⦃goal : Goal⦄ ⦃emit emit' : Reduction → Search ρ⦄
      ⦃S : ρ → List Nat → State → Prop⦄,
      (∀ r, Settles T (o ++ levelsAll (d + 1) r.premises) d (emit r) (emit' r) S) →
      Settles T o d (method.run T prove rule goal emit) (method.run T prove' rule goal emit') S

section Solver

variable {prove prove' : Prover} {k k' : Proof → Search ρ} {S : ρ → List Nat → State → Prop}

/-- The application is open, at this depth, while its premises are proved and while the continuation
runs. -/
theorem applyRule_settles (hprove : Prover.Accounts T d prove prove') {rule : Rule}
    (hrule : rule.method.Accounts T)
    (hk : ∀ p, Settles T (o ++ p.levels d) d (k p) (k' p) S) :
    Settles T (o ++ [d]) d (applyRule T prove goal k rule) (applyRule T prove' goal k' rule) S := by
  refine hrule hprove fun r => hprove.proveAll fun ps => ?_
  have hstep := hk (.step rule.name ps)
  rwa [levels, List.append_cons] at hstep

/-- An application is made if there is fuel for it, and taken back if it fails. -/
theorem step_settles {m m' : Search ρ} {handler handler' : Failure → Search ρ}
    (hm : Settles T (o ++ [d]) d m m' S)
    (hhandler : ∀ why, Settles T o d (handler why) (handler' why) S) :
    Settles T o d
      (do
        if T.spent (← ledger) then exhausted
        else
          count fun n => { n with steps := n.steps + 1 }
          (attempt m).recover fun why => do
            count fun n => { n with backtracks := n.backtracks + 1 }
            handler why)
      (do
        if T.spent (← ledger) then exhausted
        else
          count fun n => { n with steps := n.steps + 1 }
          (attempt m').recover fun why => do
            count fun n => { n with backtracks := n.backtracks + 1 }
            handler' why) S := by
  intro n s hs ho
  refine .ledger ?_
  split
  · exact Settles.of_quiet .exhausted n s hs ho
  · next hspent =>
    have hfuel : s.ledger.stats.steps < T.limits.fuel := by simpa [Theory.spent] using hspent
    obtain ⟨hmade, hopened⟩ := hs.step (l := { s.ledger with
      stats := { s.ledger.stats with steps := s.ledger.stats.steps + 1 } }) hfuel rfl
    refine .bind (P := fun _ n t => n.Balances T d t ∧ n.opened = o ++ [d])
      (.done rfl rfl (Tally.balancesAlong_singleton hmade) ⟨hmade, by rw [← ho]; exact hopened⟩)
      fun _ n t ⟨ht, hn⟩ => (hm.attempt n t ht hn).recover fun why n u ⟨hu, hn⟩ => ?_
    obtain ⟨hundone, hopened⟩ := hu.backtrack (l := { u.ledger with
      stats := { u.ledger.stats with backtracks := u.ledger.stats.backtracks + 1 } }) hn rfl
    refine .bind (P := fun _ n t => n.Balances T d t ∧ n.opened = o)
      (.done rfl rfl (Tally.balancesAlong_singleton hundone) ⟨hundone, hopened⟩)
      fun _ n v ⟨hv, hn⟩ => hhandler why n v hv hn

theorem tryRules_settles (hprove : Prover.Accounts T d prove prove') {rules : List Rule}
    {best : Option Failure} (hrules : ∀ rule ∈ rules, rule.method.Accounts T)
    (hk : ∀ p, Settles T (o ++ p.levels d) d (k p) (k' p) S) :
    Settles T o d (tryRules T prove goal k rules best) (tryRules T prove' goal k' rules best)
      S := by
  induction rules generalizing best with
  | nil => exact .of_quiet (.failBest best (.noRule goal))
  | cons rule rules ih =>
    rw [List.forall_mem_cons] at hrules
    refine .bind .subst fun _ _ => .ite (fun _ => ?_) fun _ => ih hrules.2
    exact step_settles (applyRule_settles hprove hrules.1 hk) fun why => (ih hrules.2).unlessSpent

theorem solveResolved_settles (hd : d < T.limits.maxDepth)
    (hprove : Prover.Accounts T (d + 1) prove prove')
    (hrules : ∀ rule ∈ T.rules, rule.method.Accounts T)
    (hk : ∀ p, Settles T (o ++ p.levels (d + 1)) d (k p) (k' p) S) :
    Settles T o d (solveResolved T prove goal k) (solveResolved T prove' goal k') S := by
  refine .bind .active fun _ _ => .ite (fun _ => .of_quiet (.fail _)) fun _ => .inside hd ?_
  exact tryRules_settles hprove hrules fun p => (hk p).outside hd

end Solver

/-- One level of the search for a proof, with `next` for the goals that it raises. A goal is not
taken up if as many are in progress as allowed. -/
def solveOnce (T : Theory) (next : Prover) : Prover := fun _ goal k => do
  if T.limits.maxDepth ≤ (← depth) then exhausted
  else if T.spent (← ledger) then exhausted
  else solveResolved T next (goal.resolve (← subst)) k

/-- So many levels of the search, and another prover below them. -/
def solveLevels (T : Theory) (deep : Prover) : Nat → Prover
  | 0 => deep
  | levels + 1 => solveOnce T (solveLevels T deep levels)

/-- The solver settles its accounts. With more levels than goals may be in progress, what stands
below them is never asked. -/
theorem solve_accounts (hrules : ∀ rule ∈ T.rules, rule.method.Accounts T) (deep : Prover)
    {room levels : Nat} (hd : d + room = T.limits.maxDepth) (hlevels : room < levels) :
    Prover.Accounts T d (solve T room) (solveLevels T deep levels) := by
  induction room generalizing d levels with
  | zero =>
    intro ρ o goal k k' S hk
    obtain ⟨levels, rfl⟩ := Nat.exists_eq_add_one.2 hlevels
    refine (Settles.of_quiet .exhausted).congr fun s hs => ?_
    change (if T.limits.maxDepth ≤ s.depth then exhausted else _ : Search ρ).run s = _
    rw [if_pos (by omega)]
  | succ room ih =>
    intro ρ o goal k k' S hk
    obtain ⟨levels, rfl⟩ : ∃ n, levels = n + 1 := ⟨levels - 1, by omega⟩
    have hnext : Prover.Accounts T (d + 1) (solve T room) (solveLevels T deep levels) :=
      ih (by omega) (by omega)
    have hbelow : Settles T o d (solve T (room + 1) ρ goal k)
        (do
          if T.spent (← ledger) then exhausted
          else solveResolved T (solveLevels T deep levels) (goal.resolve (← subst)) k') S :=
      .bind .ledger fun _ _ => .ite (fun _ => .of_quiet .exhausted) fun _ =>
        .bind .subst fun _ _ => solveResolved_settles (by omega) hnext hrules hk
    refine hbelow.congr fun s hs => ?_
    change (if T.limits.maxDepth ≤ s.depth then exhausted else _ : Search ρ).run s = _
    rw [if_neg (by omega)]

end Monotonicity
