import Monotonicity.Search.CaseSplit
import Monotonicity.Search.Introduction
import Monotonicity.Search.Inclusion
import Monotonicity.Search.Constructor
import Monotonicity.Search.Scripting

/-!
# The solver

A goal is proved by the rules whose pattern it fits, tried in the order of the theory. The prover of
a goal is given to the rules for the goals that they raise, with room for one goal less: a search in
which as many goals are in progress as the limits allow has no room left.

A goal that is already in progress is not proved again inside itself.
-/

namespace Monotonicity

/-- `reduce`: reduces a goal by a method, and hands each reduction to `emit` until one is accepted.
-/
def Method.run {ρ : Type} (T : Theory) (prove : Prover) (rule : String) (goal : Goal)
    (emit : Reduction → Search ρ) : Method → Search ρ
  | .top => emit {}
  | .eqRefl => Search.eqRefl goal >>= emit
  | .flipIntro => Search.flipIntro goal >>= emit
  | .arrowIntro => Search.arrowIntro prove goal emit
  | .dependentIntro => Search.dependentIntro prove goal emit
  | .casesReduce => Search.casesReduce goal >>= emit
  | .subrelRefl => Search.subrelRefl goal >>= emit
  | .subrelExtremes => Search.subrelExtremes goal >>= emit
  | .subrelFact => Search.subrelFact T goal emit
  | .subrelStructural => Search.subrelStructural T goal >>= emit
  | .subrelTrans => Search.subrelTrans T goal emit
  | .destruct => Search.destruct T prove goal emit
  | .monotone side => Search.monotone T prove side goal emit
  | .eqCongruence => Search.eqCongruence goal >>= emit
  | .eqUnify => Search.eqUnify goal >>= emit
  | .reflPlaceholder => Search.reflPlaceholder goal >>= emit
  | .deferUnsolved => Search.deferUnsolved T goal >>= emit
  | .relatorIntro => Search.relatorIntro T goal >>= emit
  | .script locals body => Search.runScript ⟨T, prove, rule, goal⟩ locals body >>= emit
  | .choice locals alternatives => Search.runChoice ⟨T, prove, rule, goal⟩ locals emit alternatives

namespace Search

variable {ρ : Type}

/-- `expand` after `reduce`: applies a rule to a goal, proves what it leaves to be proved, and hands
the step to `k`. -/
def applyRule (T : Theory) (prove : Prover) (goal : Goal) (k : Proof → Search ρ) (rule : Rule) :
    Search ρ :=
  rule.method.run T prove rule.name goal fun r =>
    proveAll prove (fun premises => k (.step rule.name premises)) r.subgoals r.premises

/-- `try_rules`: tries rules in order. Every application is a step and needs fuel; one that fails is
taken back and is a backtrack. -/
def tryRules (T : Theory) (prove : Prover) (goal : Goal) (k : Proof → Search ρ) :
    List Rule → Option Failure → Search ρ
  | [], best => failBest (noRule goal) best
  | rule :: rest, best => do
    if rule.pattern.fits (← subst) goal then
      if T.spent (← ledger) then exhausted
      else
        count fun n => { n with steps := n.steps + 1 }
        -- what follows a proof runs inside the attempt: its failure, too, takes the rule back
        (attempt (applyRule T prove goal k rule)).recover fun why => do
          count fun n => { n with backtracks := n.backtracks + 1 }
          unlessSpent T why (tryRules T prove goal k rest (some (why.orElse best)))
    else tryRules T prove goal k rest best

/-- Proves a goal whose placeholders have been replaced, by the rules of the theory. The goal is no
longer in progress while the continuation runs. -/
def solveResolved (T : Theory) (prove : Prover) (goal : Goal) (k : Proof → Search ρ) :
    Search ρ := do
  if (← active).contains goal then fail (.noRule (.underway goal))
  else inside goal (tryRules T prove goal (fun p => outside goal (k p)) T.rules none)

/-- `solve_goal`: the prover of a theory with room for so many goals one inside the other. -/
def solve (T : Theory) : Nat → Prover
  | 0 => fun _ _ _ => exhausted
  -- goals in progress are compared as they look now, so the goal is resolved before it is entered
  | room + 1 => fun _ goal k => do
    if T.spent (← ledger) then exhausted
    else solveResolved T (solve T room) (goal.resolve (← subst)) k

end Search

end Monotonicity
