import Monotonicity.Query.Solution

/-!
# Transport

Let `f` and `g` be related by a dependent arrow or an arrow, and let an edge join `a` and `b`. If
one of `f a` and `g b` is known to evaluate to a constructor application, then the other has a value
too: its constructor is the one that the scheme of the result relation pairs with the known one, and
its fields are related to the known fields as the scheme says. The obligations on the fields are
proved where that can be done and put off where it cannot.
-/

namespace Monotonicity

structure Computation where
  term : Term
  value : Term
deriving DecidableEq, Repr

/-- The value found on the other side. -/
structure Transported where
  derived : Side
  witnesses : List Term
  value : Term
  /-- The relation between the two values. -/
  relation : Term
  /-- How the obligations on the fields fared. -/
  residual : Solution

structure Plan where
  derived : Side
  unknown : List Term
  value : Term
  relation : Term
  obligations : List Goal
  summary : Goal

namespace Search

variable {ρ α : Type}

/-- `not_transportable`: something stands in the way of a transport. -/
def blocked (o : Obstacle) : Search α := fail (.notTransportable o)

def renamed (f : Fact) : Search Fact := do return f.rename (← reserve f.schematic)

/-- `bridge_edge`: gets from the edge's relation to the one that the function fact expects. Whatever
fails before a proof gets across is said to be a gap. -/
def bridgeEdge (prove : Prover) (found wanted : Term) (k : Option Proof → Search ρ) :
    Search ρ := do
  if ← unify found wanted then k none
  else
    let goal := Goal.subrel found wanted
    bridging (prove ρ goal) (fun p => k (some p))
      fun crossed why => if crossed then fail why else gap goal

def fieldObligations (relation : Term) (args : List Term) :
    List (FieldRel × Term × Term) → Search (List Goal)
  | [] => pure []
  | (field, x, y) :: rest => do
    let rel ← require (field.relation? relation args) (blocked .missingArgument)
    return .related rel x y :: (← fieldObligations relation args rest)

/-- The side whose value is to be found: the one that the computation is not about. -/
def derivedSide (term left right : Term) : Search Side := do
  if ← unify term right then return .left
  if ← unify term left then return .right
  blocked .foreignComputation

/-- `plan`: decides which side's value is to be found and what has to hold of it. `result` gives the
relation between the results at an edge. -/
def plan (T : Theory) (lifted edge : Fact) (result : Subst → Option Term) (c : Computation) :
    Search Plan := do
  let σ ← subst
  let left ← require ((σ.walk lifted.left).extend? [edge.left]) (blocked .leftNotApplicable)
  let right ← require ((σ.walk lifted.right).extend? [edge.right]) (blocked .rightNotApplicable)
  let derived ← derivedSide c.term left right
  let relation ← require (result (← subst)) (blocked .noFamily)
  let .named head args := (← subst).view relation | blocked .noRelator
  let scheme ← require (T.registry.schemes.get? head) (blocked .noScheme)
  let .app ctor known := (← subst).walk c.value | blocked .noValue
  -- the computed constructor alone decides: later cases that have it are not looked at
  let pair ← require
    ((derived.pick (scheme.forRight? ctor) (scheme.forLeft? ctor)).filter
      (·.fields.length = known.length))
    (blocked .noCase)
  let unknown ← freshVars known.length
  let value : Term := .app (derived.pick pair.left pair.right) unknown
  match T.registry.computations.get? ((← subst).resolve (derived.pick left right)) with
  | some computed => if !(← unify value computed) then blocked .unrelatedValue
  | none => pure ()
  let fields := derived.pick (unknown.zip known) (known.zip unknown)
  let obligations ← fieldObligations relation args (pair.fields.zip fields)
  return { derived, unknown, value, relation, obligations, summary := .related relation left right }

/-- `discharge`: proves obligations in order, and puts off those without a proof that goes with the
ones before. -/
def discharge (prove : Prover) (k : List Proof → Search ρ) :
    List Goal → List Proof → Search ρ
  | [], done => k done
  | goal :: rest, done =>
    recover (attempt (prove ρ goal fun p => discharge prove k rest (done ++ [p])))
      fun why => do
        -- a limit says nothing about the obligation, so it is not put off
        if why.isExhausted then fail why
        else
          let p ← defer goal
          discharge prove k rest (done ++ [p])

/-- What a plan comes to once its obligations are settled. -/
def arrive (bound : Nat) (p : Plan) (premises : List Proof) : Search Transported where
  run s :=
    .success
      { derived := p.derived
        witnesses := p.unknown.map s.subst.resolve
        value := s.subst.resolve p.value
        relation := s.subst.resolve p.relation
        residual := .ofProof p.summary bound (.step "transport" premises) s }
      s

/-- `transport`: carries the fact `liftedId` along the fact `edgeId`; the caller's placeholders are
below `bound`. -/
def transport (T : Theory) (prove : Prover) (bound liftedId edgeId : Nat) (lifted edge : Fact)
    (c : Computation) : Search Transported := do
  let lifted ← renamed lifted
  let edge ← renamed edge
  let (expected, result) ←
    match (← subst).view lifted.rel with
    | .dependent e family =>
      pure (e, fun σ : Subst => σ.family? family edge.left edge.right edge.witness)
    | .arrow e cod => pure (e, fun _ => some cod)
    | _ => blocked .noFunctionFact
  let facts := [Proof.fact liftedId lifted.witness, Proof.fact edgeId edge.witness]
  bridgeEdge prove edge.rel expected fun bridged => do
    let p ← plan T lifted edge result c
    discharge prove (arrive bound p) p.obligations (facts ++ bridged.toList)

end Search

end Monotonicity
