import Monotonicity.Goal.Basic

/-!
# Failures

Why a goal, a reading of deferred obligations, or a transport came to nothing. Failures are causes;
`Failure.message` gives them words. When several alternatives failed, the most specific cause is
reported, and of two equally specific ones the later.
-/

namespace Monotonicity

inductive Subject where
  | goal (goal : Goal)
  /-- A goal met again below itself. -/
  | underway (goal : Goal)
  | term (term : Term)
  | text (text : String)
deriving DecidableEq, Repr

def Subject.message : Subject → String
  | .goal g => g.text
  | .underway g => g.text ++ " (already being proved)"
  | .term t => t.text
  | .text s => s

/-- What stands in the way of a transport: the causes that `not_transportable` is called with. -/
inductive Obstacle where
  | noFunctionFact
  | leftNotApplicable
  | rightNotApplicable
  | foreignComputation
  /-- The family has no relation at the edge. -/
  | noFamily
  | noRelator
  | noScheme
  | noValue
  /-- The scheme has no case for the computed value. -/
  | noCase
  | unrelatedValue
  /-- The scheme asks for an argument that the relator does not have. -/
  | missingArgument
  /-- Anything else, in the words of who says it. -/
  | text (text : String)
deriving DecidableEq, Repr

def Obstacle.message : Obstacle → String
  | .noFunctionFact => "first fact is not a forall or arrow fact"
  | .leftNotApplicable => "left function is not an application"
  | .rightNotApplicable => "right function is not an application"
  | .foreignComputation => "computation is about neither function at the edge"
  | .noFamily => "result family cannot be instantiated"
  | .noRelator => "result relation is not a registered relator"
  | .noScheme => "result relation has no destructuring scheme"
  | .noValue => "computed value is not a constructor application"
  | .noCase => "no scheme case for the computed constructor"
  | .unrelatedValue => "the other function computes to an unrelated value"
  | .missingArgument => "scheme refers to a missing relator argument"
  | .text s => s

inductive Failure where
  | noCandidate (subject : Subject)
  | noRule (subject : Subject)
  /-- `UnbridgeableGap`: a candidate was found, but its relation is not included in the goal's. -/
  | gap (subject : Subject)
  /-- `ImproperTerminator`: a conjunction of obligations is still open. -/
  | openWitness
  /-- `DepthExceeded`: the limit on depth or on steps was reached. -/
  | exhausted (depth steps : Nat)
  | unknownFact (id : Nat)
  | notTransportable (obstacle : Obstacle)
deriving DecidableEq, Repr

namespace Failure

def specificity : Failure → Nat
  | .noRule _ => 0
  | .noCandidate _ => 1
  | .gap _ => 2
  | .exhausted _ _ => 3
  | .openWitness => 4
  | .unknownFact _ => 4
  | .notTransportable _ => 4

/-- `most_specific`: the later failure, unless the earlier one says more. -/
def orElse (later : Failure) : Option Failure → Failure
  | some earlier => if later.specificity < earlier.specificity then earlier else later
  | none => later

def isExhausted : Failure → Bool
  | .exhausted _ _ => true
  | _ => false

def message : Failure → String
  | .noCandidate s => "no fact or prefix found for " ++ s.message
  | .noRule s => "no step rule applies to " ++ s.message
  | .gap s => "candidate found but no subrel path bridges it to " ++ s.message
  | .openWitness => "delay witness is not a conjunction terminated by unit"
  | .exhausted depth steps =>
    "search budget exhausted after " ++ toString steps ++ " steps at depth " ++ toString depth
  | .unknownFact id => "unknown fact #" ++ toString id
  | .notTransportable o => "cannot transport: " ++ o.message

def kind : Failure → String
  | .noCandidate _ => "NoCandidate"
  | .noRule _ => "NoMatchingRule"
  | .gap _ => "UnbridgeableGap"
  | .openWitness => "ImproperTerminator"
  | .exhausted _ _ => "DepthExceeded"
  | .unknownFact _ => "UnknownFact"
  | .notTransportable _ => "NotTransportable"

end Failure

end Monotonicity
