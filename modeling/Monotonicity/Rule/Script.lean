import Monotonicity.Goal.Basic
import Monotonicity.Goal.Failure
import Monotonicity.Proof
import Monotonicity.Table

/-!
# Scripts

Users describe rules of their own by scripts: lists of actions on the goal, on named local terms,
and on the premises and subgoals collected so far. Expressions are terms in which locals may stand
and which may repeat a head many times over; they become terms once the locals are known.

An action that was written badly is kept as `malformed`, because the script up to it still runs.
-/

namespace Monotonicity

abbrev Locals := Table String Term

inductive Expr where
  | var (index : Nat)
  | app (head : String) (args : List Expr)
  | cases (scrutinee : Expr) (arms : List (Arm Expr))
  | name (name : String)
  /-- `head before…` applied `count` times over to `base`. -/
  | repeated (count : Nat) (head : String) (before : List Expr) (base : Expr)
deriving Repr

namespace Expr

def maxCount : Nat := 10000

mutual
/-- The term meant, unless a local is unknown or a repetition too long. -/
def eval? (locals : Locals) : Expr → Option Term
  | .var i => some (.var i)
  | .app head args => (evalAll? locals args).map (.app head)
  | .cases s arms => do return .cases (← eval? locals s) (← evalArms? locals arms)
  | .name x => locals.get? x
  | .repeated count head before base => do
    let base ← eval? locals base
    let before ← evalAll? locals before
    if count ≤ maxCount then
      return Term.iterate (fun t => .app head (before ++ [t])) count base
    else none

def evalAll? (locals : Locals) : List Expr → Option (List Term)
  | [] => some []
  | e :: es => do return (← eval? locals e) :: (← evalAll? locals es)

def evalArms? (locals : Locals) : List (Arm Expr) → Option (List (Arm Term))
  | [] => some []
  | ⟨c, n, e⟩ :: arms => do return ⟨c, n, ← eval? locals e⟩ :: (← evalArms? locals arms)
end

mutual
def symbols : Expr → List String
  | .var _ => []
  | .app head args => head :: symbolsAll args
  | .cases s arms => s.symbols ++ symbolsArms arms
  | .name _ => []
  | .repeated _ head before base => head :: (symbolsAll before ++ base.symbols)

def symbolsAll : List Expr → List String
  | [] => []
  | e :: es => e.symbols ++ symbolsAll es

def symbolsArms : List (Arm Expr) → List String
  | [] => []
  | ⟨c, _, e⟩ :: arms => c :: (e.symbols ++ symbolsArms arms)
end

end Expr

inductive GoalExpr where
  | related (rel left right : Expr)
  | subrel (lesser greater : Expr)
  /-- The goal of the rule itself. -/
  | own
deriving Repr

namespace GoalExpr

/-- The goal meant, `own` being that of the rule. -/
def eval? (locals : Locals) (own : Option Goal) : GoalExpr → Option Goal
  | .related rel left right => do
    return .related (← rel.eval? locals) (← left.eval? locals) (← right.eval? locals)
  | .subrel lesser greater => do return .subrel (← lesser.eval? locals) (← greater.eval? locals)
  | .own => own

def symbols : GoalExpr → List String
  | .related rel left right => Expr.symbolsAll [rel, left, right]
  | .subrel lesser greater => Expr.symbolsAll [lesser, greater]
  | .own => []

end GoalExpr

structure HypExpr where
  rel : Expr
  left : Expr
  right : Expr
  witness : Expr
deriving Repr

namespace HypExpr

def eval? (locals : Locals) (h : HypExpr) : Option Hypothesis := do
  return ⟨← h.rel.eval? locals, ← h.left.eval? locals, ← h.right.eval? locals,
    ← h.witness.eval? locals⟩

def symbols (h : HypExpr) : List String := Expr.symbolsAll [h.rel, h.left, h.right, h.witness]

end HypExpr

inductive ProofExpr where
  | fact (id : Nat) (witness : Expr)
  | inclusion (id : Nat)
  | hypothesis (witness : Expr)
  | deferred (position : Nat)
  | step (rule : String) (premises : List ProofExpr)
deriving Repr

namespace ProofExpr

mutual
def eval? (locals : Locals) : ProofExpr → Option Proof
  | .fact id w => (w.eval? locals).map (.fact id)
  | .inclusion id => some (.inclusion id)
  | .hypothesis w => (w.eval? locals).map .hypothesis
  | .deferred i => some (.deferred i)
  | .step rule ps => (evalAll? locals ps).map (.step rule)

def evalAll? (locals : Locals) : List ProofExpr → Option (List Proof)
  | [] => some []
  | p :: ps => do return (← eval? locals p) :: (← evalAll? locals ps)
end

mutual
def symbols : ProofExpr → List String
  | .fact _ w => w.symbols
  | .hypothesis w => w.symbols
  | .step _ ps => symbolsAll ps
  | _ => []

def symbolsAll : List ProofExpr → List String
  | [] => []
  | p :: ps => p.symbols ++ symbolsAll ps
end

end ProofExpr

inductive Topic where
  | goal
  | hyps
  | delayed
  | stats
  | limits
  | subst
deriving DecidableEq, Repr

inductive Action where
  | unify (a b : Expr)
  | tryUnify (a b : Expr)
  | freshVar (name : String)
  | freshConst (name hint : String)
  /-- Sets placeholders aside; the local is the first of them. -/
  | reserve (name : String) (count : Nat)
  | walk (name : String) (term : Expr)
  | resolve (name : String) (term : Expr)
  | arg (name : String) (term : Expr) (position : Nat)
  | apply (name : String) (func arg : Expr)
  | isVar (term : Expr)
  | isApp (term : Expr)
  | defer (goal : GoalExpr)
  /-- Proves a goal at once, under further hypotheses. -/
  | prove (goal : GoalExpr) (hyps : List HypExpr)
  /-- Runs actions and takes them back if one fails. -/
  | attempt (actions : List Action)
  | sub (goal : GoalExpr)
  | premise (proof : ProofExpr)
  | fail (why : Option Failure)
  | log (topic : Topic)
  | display (term : Expr)
  | view (rel : Expr)
  | select (side : Side) (term : Expr)
  | malformed
deriving Repr

/-- A goal that an alternative proves under hypotheses before it reduces. -/
structure Assuming where
  goal : GoalExpr
  hyps : List HypExpr := []
deriving Repr

/-- One way of a script with several to reduce a goal. -/
structure Alternative where
  body : List Action
  /-- What to prove under hypotheses after the body, its proof being the last premise. -/
  assuming : Option Assuming := none
deriving Repr

end Monotonicity
