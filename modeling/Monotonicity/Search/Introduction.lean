import Monotonicity.Search.Basic

/-!
# Introduction, congruence and last resorts

The rules that go by the shape of a goal's relation, those for equality, and those that commit a
placeholder or put the goal off.
-/

namespace Monotonicity.Search

variable {ρ : Type}

def eqRefl (goal : Goal) : Search Reduction := do
  let .related _ left right := goal | noRule goal
  let σ ← subst
  if σ.resolve left = σ.resolve right then pure {} else noRule goal

/-- `flip_intro`: the converse holds of a pair if the relation holds of the swapped pair. -/
def flipIntro (goal : Goal) : Search Reduction := do
  let .related rel left right := goal | noRule goal
  let .flip inner := (← subst).view rel | noRule goal
  return { subgoals := [.related inner right left] }

/-- `applied`: both sides of a goal applied to one argument each. -/
def applied (goal : Goal) (left right x y : Term) : Search (Term × Term) := do
  let σ ← subst
  match (σ.walk left).extend? [x], (σ.walk right).extend? [y] with
  | some fx, some gy => return (fx, gy)
  | _, _ => noRule goal

/-- `arrow_intro`: two functions are related by an arrow if they take arguments related by the
domain, here new constants, to results related by the codomain. -/
def arrowIntro (prove : Prover) (goal : Goal) (emit : Reduction → Search ρ) : Search ρ := do
  let .related rel left right := goal | noRule goal
  let .arrow dom cod := (← subst).view rel | noRule goal
  let x ← freshConst "x"
  let y ← freshConst "y"
  let (fx, gy) ← applied goal left right x y
  let h ← freshConst "h"
  proveAssuming prove [⟨dom, x, y, h⟩] (.related cod fx gy) fun p => emit { premises := [p] }

/-- `forall_intro`: two functions are related by a dependent arrow if they take the ends of every
edge to results related by the family at that edge. -/
def dependentIntro (prove : Prover) (goal : Goal) (emit : Reduction → Search ρ) : Search ρ := do
  let .related rel left right := goal | noRule goal
  let .dependent edge family := (← subst).view rel | noRule goal
  let v ← freshConst "v"
  let w ← freshConst "v"
  let e ← freshConst "e"
  let (fv, gw) ← applied goal left right v w
  let inst ← require ((← subst).family? family v w e) (noRule goal)
  proveAssuming prove [⟨edge, v, w, e⟩] (.related inst fv gw) fun p => emit { premises := [p] }

/-- `eq_congruence`: applications of one head are equal if their arguments are. -/
def eqCongruence (goal : Goal) : Search Reduction := do
  let .related rel left right := goal | noRule goal
  let σ ← subst
  match σ.walk left, σ.walk right with
  | .app f xs, .app g ys =>
    if f = g ∧ xs.length = ys.length ∧ xs ≠ [] then
      return { subgoals := (xs.zip ys).map fun (x, y) => .related rel x y }
    else noRule goal
  | _, _ => noRule goal

def eqUnify (goal : Goal) : Search Reduction := do
  let .related _ left right := goal | noRule goal
  if ← unify left right then pure {} else noRule goal

/-- `refl_placeholder`: a relation on which nothing is known may be equality. -/
def reflPlaceholder (goal : Goal) : Search Reduction := do
  let .related rel left right := goal | noRule goal
  if ← unify left right then
    if ← unify rel .equality then pure {} else noRule goal
  else noRule goal

/-- `defer_unsolved`: puts a goal off, if the limits say so. -/
def deferUnsolved (T : Theory) (goal : Goal) : Search Reduction := do
  if T.limits.deferUnsolved then
    return { premises := [← defer goal] }
  else noRule goal

end Monotonicity.Search
