import Monotonicity.Relation.Basic

/-!
# Goals

A goal asks that a relation hold between two terms, or that one relation be included in another.
Hypotheses are the local assumptions under which a goal is proved, and patterns say which goals a
rule looks at.
-/

namespace Monotonicity

inductive Goal where
  /-- `rel left right` is to hold. -/
  | related (rel left right : Term)
  /-- Whatever `lesser` relates, `greater` relates. -/
  | subrel (lesser greater : Term)
deriving DecidableEq, Repr

namespace Goal

def map (f : Term → Term) : Goal → Goal
  | .related rel left right => .related (f rel) (f left) (f right)
  | .subrel lesser greater => .subrel (f lesser) (f greater)

def terms : Goal → List Term
  | .related rel left right => [rel, left, right]
  | .subrel lesser greater => [lesser, greater]

/-- `resolve`: the goal with every bound placeholder replaced. -/
def resolve (σ : Subst) (g : Goal) : Goal := g.map σ.resolve

def maxVar? (g : Goal) : Option Nat := Term.maxVarAll? g.terms

/-- `format_goal`: the relation and what it is to relate, or the two relations of an inclusion. -/
def text : Goal → String
  | .related rel left right => rel.text ++ " " ++ left.text ++ " " ++ right.text
  | .subrel lesser greater => "subrel " ++ lesser.text ++ " " ++ greater.text

end Goal

/-- A local assumption `rel left right`, named by its witness. -/
structure Hypothesis where
  rel : Term
  left : Term
  right : Term
  witness : Term
deriving DecidableEq, Repr

namespace Hypothesis

/-- The hypothesis with bound placeholders replaced in its statement; its name stays. -/
def resolve (σ : Subst) (h : Hypothesis) : Hypothesis :=
  { h with rel := σ.resolve h.rel, left := σ.resolve h.left, right := σ.resolve h.right }

def text (h : Hypothesis) : String :=
  h.rel.text ++ " " ++ h.left.text ++ " " ++ h.right.text ++ " : " ++ h.witness.text

end Hypothesis

/-- `Anchor`: one of the two sides of a goal. -/
inductive Side where
  | left
  | right
deriving DecidableEq, Repr

/-- The choice that a side makes between two things. -/
def Side.pick {α : Type} (left right : α) : Side → α
  | .left => left
  | .right => right

/-- `GoalPattern`: the goals a rule looks at. -/
inductive Pattern where
  | any
  | related (shape : Shape)
  | anyRelated
  | bothCases
  | subrel
deriving DecidableEq, Repr

/-- `matches`: whether a goal fits a pattern under a substitution. -/
def Pattern.fits (σ : Subst) : Pattern → Goal → Bool
  | .any, _ => true
  | .subrel, .subrel _ _ => true
  | .anyRelated, .related _ _ _ => true
  | .related shape, .related rel _ _ => (σ.view rel).shape = shape
  | .bothCases, .related _ left right =>
    (σ.walk left).asCases?.isSome && (σ.walk right).asCases?.isSome
  | _, _ => false

end Monotonicity
