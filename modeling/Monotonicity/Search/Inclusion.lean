import Monotonicity.Search.Basic

/-!
# The order of relations

The rules for inclusions: reflexivity, the two extremes, registered inclusions, the variance of
combinators, and transitivity through a registered inclusion.
-/

namespace Monotonicity.Search

variable {ρ : Type}

def subrelRefl (goal : Goal) : Search Reduction := do
  let .subrel lesser greater := goal | noRule goal
  let σ ← subst
  if σ.view lesser = σ.view greater then return {}
  if ← unify lesser greater then return {}
  noRule goal

/-- `subrel_extremes`: the empty relation is included in all, and all in the full relation. -/
def subrelExtremes (goal : Goal) : Search Reduction := do
  let .subrel lesser greater := goal | noRule goal
  let σ ← subst
  if σ.view greater = .top ∨ σ.view lesser = .bottom then pure {} else noRule goal

/-- Goes through the registered inclusions, each renamed apart, as alternatives for a goal. -/
def eachInclusion (T : Theory) (goal : Goal) (run : Nat → Term → Term → Search ρ) : Search ρ :=
  tryEach T
    (fun (f, id) => do
      let offset ← reserve f.schematic
      run id (f.lesser.rename offset) (f.greater.rename offset))
    (failBest (noRule goal))
    T.registry.inclusions.toList.zipIdx none

/-- `subrel_fact`: an inclusion holds if it is an instance of a registered one. -/
def subrelFact (T : Theory) (goal : Goal) (emit : Reduction → Search ρ) : Search ρ := do
  let .subrel lesser greater := goal | noRule goal
  eachInclusion T goal fun id l g => do
    if ← unify lesser l then
      if ← unify greater g then emit { premises := [.inclusion id] } else noRule goal
    else noRule goal

/-- `subrel_trans`: an inclusion holds if its lesser side is that of a registered one whose greater
side is included in the goal's. -/
def subrelTrans (T : Theory) (goal : Goal) (emit : Reduction → Search ρ) : Search ρ := do
  let .subrel lesser greater := goal | noRule goal
  eachInclusion T goal fun id l g => do
    if ← unify lesser l then emit { premises := [.inclusion id], subgoals := [.subrel g greater] }
    else noRule goal

/-- The inclusions between two lists of arguments that the variances ask for. -/
def argumentInclusions (goal : Goal) : List (Term × Term × Variance) → Search (List Goal)
  | [] => pure []
  | (a, b, .covariant) :: rest => do return .subrel a b :: (← argumentInclusions goal rest)
  | (a, b, .contravariant) :: rest => do return .subrel b a :: (← argumentInclusions goal rest)
  | (a, b, .invariant) :: rest => do
    if ← unify a b then argumentInclusions goal rest else noRule goal

/-- `subrel_structural`: inclusion of relations built by the same combinator, argument by argument.
-/
def subrelStructural (T : Theory) (goal : Goal) : Search Reduction := do
  let .subrel lesser greater := goal | noRule goal
  let σ ← subst
  match σ.view lesser, σ.view greater with
  | .arrow a b, .arrow a' b' => return { subgoals := [.subrel a' a, .subrel b b'] }
  | .flip a, .flip b => return { subgoals := [.subrel a b] }
  | .dependent e f, .dependent e' f' =>
    let v ← freshConst "v"
    let w ← freshConst "v"
    let x ← freshConst "e"
    match σ.family? f v w x, σ.family? f' v w x with
    | some r, some r' => return { subgoals := [.subrel e' e, .subrel r r'] }
    | _, _ => noRule goal
  | .named h xs, .named h' ys =>
    if h = h' ∧ xs.length = ys.length then
      let variances ← require (T.registry.variances.get? h) (noRule goal)
      if variances.length = xs.length then
        return { subgoals := ← argumentInclusions goal (xs.zip (ys.zip variances)) }
      else noRule goal
    else noRule goal
  | _, _ => noRule goal

end Monotonicity.Search
