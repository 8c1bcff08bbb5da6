import Monotonicity.Relation.Scheme

/-!
# Relators

The relators of the library lift relations to optional values, pairs, sums and lists. Each is
covariant in all its arguments and has a scheme.
-/

namespace Monotonicity

/-- The relators that `install` knows. -/
inductive Relator where
  | option
  | prod
  | sum
  | list
deriving DecidableEq, Repr

namespace Relator

/-- The relators in the order in which they are installed. -/
def all : List Relator := [.option, .prod, .sum, .list]

def head : Relator → String
  | .option => "option_rel"
  | .prod => "prod_rel"
  | .sum => "sum_rel"
  | .list => "list_rel"

def arity : Relator → Nat
  | .option => 1
  | .prod => 2
  | .sum => 2
  | .list => 1

/-- The constructors that go together, and how their fields are related. -/
def cases : Relator → List CasePair
  | .option => [⟨"None", "None", []⟩, ⟨"Some", "Some", [.arg 0]⟩]
  | .prod => [⟨"pair", "pair", [.arg 0, .arg 1]⟩]
  | .sum => [⟨"inl", "inl", [.arg 0]⟩, ⟨"inr", "inr", [.arg 1]⟩]
  | .list => [⟨"nil", "nil", []⟩, ⟨"cons", "cons", [.arg 0, .recursive]⟩]

def variances (r : Relator) : List Variance := List.replicate r.arity .covariant

def symbols (r : Relator) : List String := r.head :: r.cases.flatMap fun c => [c.left, c.right]

end Relator

end Monotonicity
