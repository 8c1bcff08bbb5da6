import Monotonicity.Relation.Basic

/-!
# Schemes

A scheme says how the values related by a relator line up constructor by constructor: which
constructor on the left goes with which on the right, and how their fields are related. For optional
values, `None` goes with `None`, and `Some x` with `Some y` if the argument relates `x` and `y`.
-/

namespace Monotonicity

/-- How one field of a constructor pair is related. -/
inductive FieldRel where
  /-- By the relator's argument at this position. -/
  | arg (position : Nat)
  | fixed (rel : Term)
  /-- By the relator itself, as for the tail of a list. -/
  | recursive
deriving DecidableEq, Repr

namespace FieldRel

/-- `field_relation`: the relation meant inside `whole`, a relator applied to `args`. -/
def relation? (whole : Term) (args : List Term) : FieldRel → Option Term
  | .arg i => args[i]?
  | .fixed rel => some rel
  | .recursive => some whole

def text : FieldRel → String
  | .arg i => "arg " ++ toString i
  | .fixed rel => "fixed " ++ rel.text
  | .recursive => "rec"

def symbols : FieldRel → List String
  | .fixed rel => rel.symbols
  | _ => []

end FieldRel

structure CasePair where
  left : String
  right : String
  fields : List FieldRel
deriving DecidableEq, Repr

/-- `DestructScheme`: the cases of a relator. -/
structure Scheme where
  cases : List CasePair := []
deriving DecidableEq, Repr

namespace Scheme

/-- `for_left`, and `for_right` below: the first case with this constructor. -/
def forLeft? (s : Scheme) (ctor : String) : Option CasePair := s.cases.find? (·.left = ctor)

def forRight? (s : Scheme) (ctor : String) : Option CasePair := s.cases.find? (·.right = ctor)

end Scheme

end Monotonicity
