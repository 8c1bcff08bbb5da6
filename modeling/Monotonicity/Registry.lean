import Monotonicity.Goal.Basic
import Monotonicity.Relation.Scheme
import Monotonicity.Table

/-!
# The registry

What an engine has been told: facts, inclusions, and what is declared about single heads. Facts are
numbered in the order in which they come, and are filed by the head of each of their sides, once
with and once without the number of its arguments. A fact whose side is no application is not filed
there.

The placeholders of a fact are universally quantified, and each use renames them apart.
-/

namespace Monotonicity

/-- `schematic_count`: the number of placeholders to set aside for a use of the given terms, if it
is an index too. -/
def schematic? (ts : List Term) : Option Nat :=
  let n := Term.boundAll ts
  if n < indexBound then some n else none

inductive FactKind where
  | pair
  | self
deriving DecidableEq, Repr

/-- A registered `rel left right`. -/
structure Fact where
  rel : Term
  left : Term
  right : Term
  witness : Term
  kind : FactKind
  schematic : Nat
deriving DecidableEq, Repr

namespace Fact

def side (f : Fact) (s : Side) : Term := s.pick f.left f.right

def rename (offset : Nat) (f : Fact) : Fact :=
  { f with
    rel := f.rel.rename offset
    left := f.left.rename offset
    right := f.right.rename offset
    witness := f.witness.rename offset }

end Fact

structure Inclusion where
  lesser : Term
  greater : Term
  witness : Term
  schematic : Nat
deriving DecidableEq, Repr

/-- `FactIndex`, for one side: fact numbers filed by what stands there. -/
structure Shelf where
  /-- By head and number of arguments. -/
  byShape : Table (String × Nat) (List Nat) := {}
  byHead : Table String (List Nat) := {}

namespace Shelf

def file (s : Shelf) (id : Nat) : Term → Shelf
  | .app head args =>
    { byShape := s.byShape.alter (head, args.length) fun ids => ids.getD [] ++ [id]
      byHead := s.byHead.alter head fun ids => ids.getD [] ++ [id] }
  | _ => s

end Shelf

structure Index where
  left : Shelf := {}
  right : Shelf := {}

/-- `insert`, for both sides of a fact. -/
def Index.file (x : Index) (id : Nat) (left right : Term) : Index :=
  { left := x.left.file id left, right := x.right.file id right }

def Index.shelf (x : Index) (s : Side) : Shelf := s.pick x.left x.right

/-- `FactRegistry`: everything registered with an engine. -/
structure Registry where
  facts : Array Fact := #[]
  pairs : Index := {}
  selves : Index := {}
  inclusions : Array Inclusion := #[]
  /-- How many leading arguments a head keeps fixed. -/
  parameters : Table String Nat := {}
  variances : Table String (List Variance) := {}
  schemes : Table String Scheme := {}
  computations : Table Term Term := {}

namespace Registry

/-- `add_fact`: registers a fact; refused if its placeholders leave no room for renaming. -/
def addFact? (r : Registry) (rel left right witness : Term) : Option (Nat × Registry) :=
  (schematic? [rel, left, right, witness]).map fun n =>
    let id := r.facts.size
    (id, { r with
      facts := r.facts.push ⟨rel, left, right, witness, .pair, n⟩
      pairs := r.pairs.file id left right })

def addSelf? (r : Registry) (rel term witness : Term) : Option (Nat × Registry) :=
  (schematic? [rel, term, witness]).map fun n =>
    let id := r.facts.size
    (id, { r with
      facts := r.facts.push ⟨rel, term, term, witness, .self, n⟩
      selves := r.selves.file id term term })

/-- `add_subrel`: registers an inclusion. -/
def addInclusion? (r : Registry) (lesser greater witness : Term) : Option (Nat × Registry) :=
  (schematic? [lesser, greater, witness]).map fun n =>
    (r.inclusions.size, { r with inclusions := r.inclusions.push ⟨lesser, greater, witness, n⟩ })

/-- `by_shape`: the facts with this head and this many arguments on one side, first the pairs, then
the self-related terms, each in the order in which they were registered. -/
def byShape (r : Registry) (s : Side) (head : String) (arity : Nat) : List Nat :=
  ((r.pairs.shelf s).byShape.get? (head, arity)).getD [] ++
    ((r.selves.shelf s).byShape.get? (head, arity)).getD []

/-- `by_head`: the facts with this head on one side, in the same order. -/
def byHead (r : Registry) (s : Side) (head : String) : List Nat :=
  ((r.pairs.shelf s).byHead.get? head).getD [] ++ ((r.selves.shelf s).byHead.get? head).getD []

end Registry

end Monotonicity
