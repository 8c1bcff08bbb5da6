import Monotonicity.Search.Basic

/-!
# Constructor applications

One rule introduces every relation that has a scheme: two constructor applications are related if
the scheme pairs their constructors and relates their fields.
-/

namespace Monotonicity.Search

def fieldGoals (goal : Goal) (whole : Term) (args : List Term) :
    List (FieldRel × Term × Term) → Search (List Goal)
  | [] => pure []
  | (field, x, y) :: rest => do
    let rel ← require (field.relation? whole args) (noRule goal)
    return .related rel x y :: (← fieldGoals goal whole args rest)

/-- `relator_intro`: relates two constructor applications field by field, by the case of the scheme
that has both constructors. -/
def relatorIntro (T : Theory) (goal : Goal) : Search Reduction := do
  let .related rel left right := goal | noRule goal
  let σ ← subst
  let .named head args := σ.view rel | noRule goal
  let scheme ← require (T.registry.schemes.get? head) (noRule goal)
  match σ.walk left, σ.walk right with
  | .app c xs, .app c' ys =>
    let pair ← require
      (scheme.cases.find? fun p =>
        p.left = c ∧ p.right = c' ∧ p.fields.length = xs.length ∧ xs.length = ys.length)
      (noRule goal)
    return { subgoals := ← fieldGoals goal (σ.resolve rel) args (pair.fields.zip (xs.zip ys)) }
  | _, _ => noRule goal

end Monotonicity.Search
