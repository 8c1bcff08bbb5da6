import Monotonicity.Search.Candidate

/-!
# Running scripts

A script runs on a frame: the locals known so far and the premises and subgoals collected. It starts
with the locals of its registration and the parts of the goal, and ends with a reduction. Whatever
is badly written or mentions an unknown local fails because no rule applies.
-/

namespace Monotonicity

/-- What a script has put together so far. -/
structure Frame where
  locals : Locals
  premises : List Proof := []
  subgoals : List Goal := []

namespace Frame

/-- The frame a script starts with: its locals and the parts of the goal. -/
def start (locals : Locals) : Goal → Frame
  | .related rel left right =>
    { locals := ((locals.insert "rel" rel).insert "left" left).insert "right" right }
  | .subrel lesser greater =>
    { locals := (locals.insert "lesser" lesser).insert "greater" greater }

def set (f : Frame) (name : String) (t : Term) : Frame :=
  { f with locals := f.locals.insert name t }

def addPremise (f : Frame) (p : Proof) : Frame := { f with premises := f.premises ++ [p] }

def addSubgoal (f : Frame) (g : Goal) : Frame := { f with subgoals := f.subgoals ++ [g] }

def reduction (f : Frame) : Reduction := { premises := f.premises, subgoals := f.subgoals }

end Frame

/-- What a script runs in: the theory, a prover for its goals, and the rule and goal it is for. -/
structure Setting where
  theory : Theory
  prove : Prover
  rule : String
  goal : Goal

namespace Search

variable {ρ : Type}

/-! ## Log lines -/

def listed (items : List String) : String := "[" ++ "; ".intercalate items ++ "]"

def candidateText (side : Side) (c : Candidate) : String :=
  " ".intercalate [c.proof.text, c.rel.text, c.left.text, c.right.text, "side", (c.side side).text,
    "consumed", toString c.consumed]

/-- What is logged on a topic in a state. -/
def topicText (S : Setting) (s : State) : Topic → String
  | .goal => "goal " ++ (S.goal.resolve s.subst).text
  | .hyps => "hyps " ++ listed (s.hyps.map (·.text))
  | .delayed =>
    let now := snapshot s.delayed
    let verdict := match now.reify with
      | .ok _ => "ok"
      | .error why => why.kind
    "delayed " ++ listed (now.items.map fun p => p.goal.text ++ " under " ++ toString p.hyps.length)
      ++ " len " ++ toString now.length ++ " " ++ verdict
  | .stats =>
    let n := s.ledger.stats
    "stats " ++ " ".intercalate
      ([n.steps, n.backtracks, n.unifications, n.probes, n.deferrals, n.maxDepth].map toString)
  | .limits =>
    let m := S.theory.limits
    "config " ++ toString m.maxDepth ++ " " ++ toString m.fuel ++ " " ++
      if m.deferUnsolved then "true" else "false"
  | .subst =>
    "subst " ++ listed (s.subst.toList.map fun (i, t) => "?" ++ toString i ++ "=" ++ t.text)

def say (S : Setting) (line : String) : Search Unit := note (S.rule ++ ": " ++ line)

/-! ## Reading expressions -/

/-- The term an expression means. -/
def readTerm (S : Setting) (f : Frame) (e : Expr) : Search Term := do
  mention e.symbols
  share (← require (e.eval? f.locals) (noRule S.goal))

def readGoal (S : Setting) (f : Frame) (e : GoalExpr) : Search Goal := do
  mention e.symbols
  shareGoal (← require (e.eval? f.locals (some S.goal)) (noRule S.goal))

def readHyps (S : Setting) (f : Frame) : List HypExpr → Search (List Hypothesis)
  | [] => pure []
  | e :: rest => do
    mention e.symbols
    let h ← shareHyp (← require (e.eval? f.locals) (noRule S.goal))
    return h :: (← readHyps S f rest)

def readProof (S : Setting) (f : Frame) (e : ProofExpr) : Search Proof := do
  mention e.symbols
  require (e.eval? f.locals) (noRule S.goal)

/-! ## Actions -/

mutual
/-- Runs one action. -/
def runAction (S : Setting) : Action → Frame → Search Frame
  | .unify a b, f => do
    let a ← readTerm S f a
    let b ← readTerm S f b
    if ← unify a b then return f else noRule S.goal
  | .tryUnify a b, f => do
    let a ← readTerm S f a
    let b ← readTerm S f b
    say S (if ← unify a b then "unify true" else "unify false")
    return f
  | .freshVar name, f => do return f.set name (← freshVar)
  | .freshConst name hint, f => do return f.set name (← freshConst hint)
  | .reserve name n, f => do return f.set name (.var (← reserve n))
  | .walk name t, f => do
    let t ← readTerm S f t
    return f.set name ((← subst).walk t)
  | .resolve name t, f => do
    let t ← readTerm S f t
    return f.set name (← share ((← subst).resolve t))
  | .arg name t i, f => do
    let t ← readTerm S f t
    let .app _ args := (← subst).walk t | noRule S.goal
    return f.set name (← require args[i]? (noRule S.goal))
  | .apply name func arg, f => do
    let func ← readTerm S f func
    let arg ← readTerm S f arg
    let t ← require (((← subst).walk func).extend? [arg]) (noRule S.goal)
    return f.set name (← share t)
  | .isVar t, f => do
    let t ← readTerm S f t
    if ((← subst).walk t).asVar?.isSome then return f else noRule S.goal
  | .isApp t, f => do
    let t ← readTerm S f t
    if ((← subst).walk t).asApp?.isSome then return f else noRule S.goal
  | .defer goal, f => do
    let goal ← readGoal S f goal
    return f.addPremise (← defer goal)
  | .prove goal hyps, f => do
    let goal ← readGoal S f goal
    let hyps ← readHyps S f hyps
    return f.addPremise (← proveAssuming S.prove hyps goal pure)
  | .attempt actions, f =>
    recover
      (attempt do
        let f ← runActions S actions f
        say S "attempt ok"
        return f)
      fun why => do
        say S ("attempt " ++ why.kind ++ ": " ++ why.message)
        return f
  | .sub goal, f => do return f.addSubgoal (← readGoal S f goal)
  | .premise p, f => do return f.addPremise (← readProof S f p)
  | .fail (some why), _ => fail why
  | .fail none, _ => noRule S.goal
  | .log topic, f => do
    say S (topicText S (← state) topic)
    return f
  | .display t, f => do
    let t ← readTerm S f t
    say S ("term " ++ ((← subst).resolve t).text)
    return f
  | .view rel, f => do
    let rel ← readTerm S f rel
    say S ("view " ++ ((← subst).view rel).text)
    return f
  | .select side t, f => do
    let t ← readTerm S f t
    match ← select S.theory side t with
    | .ok found => say S ("select " ++ listed (found.map (candidateText side)))
    | .error why => say S ("select " ++ why.kind)
    return f
  | .malformed, _ => noRule S.goal

def runActions (S : Setting) : List Action → Frame → Search Frame
  | [], f => pure f
  | action :: rest, f => do
    let f ← runAction S action f
    runActions S rest f
end

/-! ## Bodies -/

def begin (S : Setting) (locals : Locals) : Search Frame := do
  return .start locals (← shareGoal S.goal)

/-- Runs a script that reduces its goal in one way. -/
def runScript (S : Setting) (locals : Locals) (body : List Action) : Search Reduction := do
  return (← runActions S body (← begin S locals)).reduction

/-- Runs one alternative and emits its reduction, after proving what it assumes. -/
def runAlternative (S : Setting) (locals : Locals) (emit : Reduction → Search ρ)
    (a : Alternative) : Search ρ := do
  let f ← runActions S a.body (← begin S locals)
  match a.assuming with
  | none => emit f.reduction
  | some assuming =>
    let hyps ← readHyps S f assuming.hyps
    let goal ← readGoal S f assuming.goal
    proveAssuming S.prove hyps goal fun p => emit (f.addPremise p).reduction

/-- Runs alternatives until one leads to a proof, and takes back those that do not; if none does,
the last one's failure stands. -/
def runChoice (S : Setting) (locals : Locals) (emit : Reduction → Search ρ) :
    List Alternative → Search ρ
  | [] => noRule S.goal
  | [a] => attempt (runAlternative S locals emit a)
  | a :: b :: rest =>
    (attempt (runAlternative S locals emit a)).recover fun _ => runChoice S locals emit (b :: rest)

end Search

end Monotonicity
