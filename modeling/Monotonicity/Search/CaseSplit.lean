import Monotonicity.Search.Basic

/-!
# Case analyses

Two case analyses are related by first relating their scrutinees and then splitting that relation
into one obligation for each pair of arms that can be taken together. Equal scrutinees take the same
arm with the same fields. A relation with a scheme takes the arms that the scheme pairs, under
hypotheses for the fields. Of any other relation nothing is known, and every pair of arms is an
obligation.

A case analysis of a constructor application reduces to the arm taken.
-/

namespace Monotonicity

/-- `apply_arm`: the body of an arm applied to fields. -/
def applyArm? (body : Term) (fields : List Term) : Option Term :=
  if fields.isEmpty then some body else body.extend? fields

/-- `arm_for`: the first arm for a constructor. -/
def armFor? (arms : List (Arm Term)) (ctor : String) : Option (Arm Term) :=
  arms.find? (·.ctor = ctor)

structure Case where
  hyps : List Hypothesis := []
  goal : Goal

namespace Search

variable {ρ : Type}

/-! ## Splitting -/

/-- The hypotheses on the fields of two constructors, `xs` and `ys` from left to right. -/
def fieldHypotheses (goal : Goal) (whole : Term) (args : List Term) (flipped : Bool) :
    List (FieldRel × Term × Term) → Search (List Hypothesis)
  | [] => pure []
  | (field, x, y) :: rest => do
    let rel ← require (field.relation? whole args) (noRule goal)
    let h ← freshConst "h"
    return ⟨rel, if flipped then y else x, if flipped then x else y, h⟩
      :: (← fieldHypotheses goal whole args flipped rest)

/-- The cases of `split` for a relation with a scheme. Under a converse, the scheme's right
constructor stands on the left. -/
def schemeSplit (goal : Goal) (rel whole : Term) (args : List Term) (flipped : Bool)
    (arms arms' : List (Arm Term)) : List CasePair → Search (List Case)
  | [] => pure []
  | pair :: rest => do
    match armFor? arms (if flipped then pair.right else pair.left),
      armFor? arms' (if flipped then pair.left else pair.right) with
    | some arm, some arm' =>
      let arity := pair.fields.length
      if arm.arity = arity ∧ arm'.arity = arity then
        let xs ← freshConsts "x" arity
        let ys ← freshConsts "y" arity
        let hyps ← fieldHypotheses goal whole args flipped (pair.fields.zip (xs.zip ys))
        let left ← require (applyArm? arm.body xs) (noRule goal)
        let right ← require (applyArm? arm'.body ys) (noRule goal)
        return ⟨hyps, .related rel left right⟩
          :: (← schemeSplit goal rel whole args flipped arms arms' rest)
      else noRule goal
    | _, _ => noRule goal

/-- `aligned_split`: the obligations for equal scrutinees. -/
def alignedSplit (goal : Goal) (rel : Term) (arms' : List (Arm Term)) :
    List (Arm Term) → Search (List Case)
  | [] => pure []
  | arm :: rest => do
    let arm' ← require ((armFor? arms' arm.ctor).filter (·.arity = arm.arity)) (noRule goal)
    -- one block of constants for both sides, the scrutinees being equal
    let xs ← freshConsts "x" arm.arity
    let left ← require (applyArm? arm.body xs) (noRule goal)
    let right ← require (applyArm? arm'.body xs) (noRule goal)
    return { goal := .related rel left right } :: (← alignedSplit goal rel arms' rest)

/-- `all_pairs_split`: the obligations for all the given pairs of arms. A pair of which one body
cannot be applied gives none. -/
def pairsSplit (rel : Term) : List (Arm Term × Arm Term) → Search (List Case)
  | [] => pure []
  | (arm, arm') :: rest => do
    let xs ← freshConsts "x" arm.arity
    let ys ← freshConsts "y" arm'.arity
    match applyArm? arm.body xs, applyArm? arm'.body ys with
    | some left, some right => return { goal := .related rel left right } :: (← pairsSplit rel rest)
    | _, _ => pairsSplit rel rest

def allPairs (arms arms' : List (Arm Term)) : List (Arm Term × Arm Term) :=
  arms.flatMap fun arm => arms'.map fun arm' => (arm, arm')

/-- `split`: the obligations for scrutinees related by `scrutinees`. -/
def split (T : Theory) (goal : Goal) (rel scrutinees : Term) (arms arms' : List (Arm Term)) :
    Search (List Case) := do
  let σ ← subst
  let named (head : String) (args : List Term) (whole : Term) (flipped : Bool) :=
    match T.registry.schemes.get? head with
    | some scheme => schemeSplit goal rel whole args flipped arms arms' scheme.cases
    | none => pairsSplit rel (allPairs arms arms')
  match σ.view scrutinees with
  | .equality => alignedSplit goal rel arms' arms
  | .named head args => named head args (σ.resolve scrutinees) false
  | .flip inner =>
    match σ.view inner with
    | .named head args => named head args (σ.resolve inner) true
    | _ => pairsSplit rel (allPairs arms arms')
  | _ => pairsSplit rel (allPairs arms arms')

/-! ## The rules -/

def proveCases (prove : Prover) (emit : Reduction → Search ρ) : List Case → List Proof → Search ρ
  | [], done => emit { premises := done }
  | c :: rest, done =>
    proveAssuming prove c.hyps c.goal fun p => proveCases prove emit rest (done ++ [p])

/-- `destructure`: relates two case analyses through their scrutinees, each proof of whose relation
gives a split of its own. -/
def destruct (T : Theory) (prove : Prover) (goal : Goal) (emit : Reduction → Search ρ) :
    Search ρ := do
  let .related rel left right := goal | noRule goal
  let σ ← subst
  match σ.walk left, σ.walk right with
  | .cases s arms, .cases s' arms' =>
    let scrutinees ← freshVar
    prove ρ (.related scrutinees s s') fun p => do
      -- the proof has filled the placeholder for the relation of the scrutinees
      let cases ← split T goal rel scrutinees arms arms'
      proveCases prove emit cases [p]
  | _, _ => noRule goal

/-- `iota`: the arm that a case analysis takes, applied to the constructor's fields. -/
def taken? (σ : Subst) (t : Term) : Option Term :=
  match σ.walk t with
  | .cases s arms =>
    match σ.walk s with
    | .app ctor fields =>
      ((armFor? arms ctor).filter (·.arity = fields.length)).bind (applyArm? ·.body fields)
    | _ => none
  | _ => none

/-- `reduce_match`: reduces the case analyses on the sides of a goal. -/
def casesReduce (goal : Goal) : Search Reduction := do
  let .related rel left right := goal | noRule goal
  let σ ← subst
  match taken? σ left, taken? σ right with
  | none, none => noRule goal
  | left', right' => return { subgoals := [.related rel (left'.getD left) (right'.getD right)] }

end Search

end Monotonicity
