import Monotonicity.Term.Equality

/-!
# Proofs

A proof is a tree of rule applications over facts, inclusions, hypotheses and deferred obligations.
-/

namespace Monotonicity

inductive Proof where
  /-- A registered fact, with its witness as renamed for this use. -/
  | fact (id : Nat) (witness : Term)
  | inclusion (id : Nat)
  | hypothesis (witness : Term)
  /-- The obligation deferred at this position. -/
  | deferred (position : Nat)
  | step (rule : String) (premises : List Proof)
deriving Repr

namespace Proof

/-- `witness_term`: the term that names a proof, which is the witness of a leaf, or that of the only
premise of a step. -/
def witness? : Proof → Option Term
  | .fact _ w => some w
  | .hypothesis w => some w
  | .step _ [p] => p.witness?
  | _ => none

mutual
def size : Proof → Nat
  | .step _ ps => 1 + sizeAll ps
  | _ => 1

def sizeAll : List Proof → Nat
  | [] => 0
  | p :: ps => p.size + sizeAll ps
end

mutual
/-- `uses_rule`: whether a rule of this name is applied anywhere. -/
def uses (rule : String) : Proof → Bool
  | .step r ps => r == rule || usesAny rule ps
  | _ => false

def usesAny (rule : String) : List Proof → Bool
  | [] => false
  | p :: ps => p.uses rule || usesAny rule ps
end

mutual
/-- `deferred`: the positions of the deferred obligations, in tree order. -/
def deferrals : Proof → List Nat
  | .deferred i => [i]
  | .step _ ps => deferralsAll ps
  | _ => []

def deferralsAll : List Proof → List Nat
  | [] => []
  | p :: ps => p.deferrals ++ deferralsAll ps
end

mutual
def text : Proof → String
  | .fact id w => "fact(" ++ toString id ++ "," ++ w.text ++ ")"
  | .inclusion id => "subrel(" ++ toString id ++ ")"
  | .hypothesis w => "hyp(" ++ w.text ++ ")"
  | .deferred i => "deferred(" ++ toString i ++ ")"
  | .step rule ps => rule ++ "[" ++ textAll ps ++ "]"

def textAll : List Proof → String
  | [] => ""
  | [p] => p.text
  | p :: q :: ps => p.text ++ " " ++ textAll (q :: ps)
end

end Proof

end Monotonicity
