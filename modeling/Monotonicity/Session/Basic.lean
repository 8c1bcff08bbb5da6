import Monotonicity.Session.Command
import Monotonicity.Substitution.Bindings
import Monotonicity.Term.Store

/-!
# Sessions

A session is an engine with a desk beside it: named terms, a substitution and a list of obligations
to try things out on, named marks on that substitution, and the last solution. Commands are carried
out one after the other; one that is refused leaves what it did before the refusal.
-/

namespace Monotonicity

/-- An engine and what lies on the desk beside it. -/
structure Session where
  engine : Engine
  locals : Locals := {}
  subst : Bindings := {}
  marks : Table String Nat := {}
  delayed : List Pending := []
  last : Option Solution := none
  /-- Whether the relators of the library are installed. -/
  relators : Bool := false
  store : Store := {}

namespace Session

def new (limits : Limits) : Session := { engine := .new limits }

/-- Carrying out a command: the session as left comes back also with a refusal. -/
abbrev Run (α : Type) : Type := ExceptT Refusal (StateM Session) α

namespace Run

variable {α : Type}

def malformed : Run α := throw .malformed

def fault (f : Fault) : Run α := throw (.fault f)

def require : Option α → Run α
  | some a => pure a
  | none => malformed

def mention (names : List String) : Run Unit :=
  modify fun s => { s with engine := { s.engine with symbols := s.engine.symbols.mention names } }

/-! ## Reading expressions -/

def share (t : Term) : Run Term := do
  let (copy, cache) := (← get).engine.cache.share t
  modify fun s => { s with engine := { s.engine with cache := cache } }
  return copy

/-- The term an expression means. -/
def term (e : Expr) : Run Term := do
  mention e.symbols
  share (← require (e.eval? (← get).locals))

def terms : List Expr → Run (List Term)
  | [] => pure []
  | e :: es => do
    let t ← term e
    return t :: (← terms es)

def goal (e : GoalExpr) : Run Goal := do
  mention e.symbols
  match ← require (e.eval? (← get).locals none) with
  | .related rel left right => return .related (← share rel) (← share left) (← share right)
  | .subrel lesser greater => return .subrel (← share lesser) (← share greater)

def goals : List GoalExpr → Run (List Goal)
  | [] => pure []
  | e :: es => do
    let g ← goal e
    return g :: (← goals es)

def hyps : List HypExpr → Run (List Hypothesis)
  | [] => pure []
  | e :: es => do
    mention e.symbols
    let h ← require (e.eval? (← get).locals)
    return h :: (← hyps es)

def proof (e : ProofExpr) : Run Proof := do
  mention e.symbols
  require (e.eval? (← get).locals)

def field : FieldExpr → Run FieldRel
  | .arg i => pure (.arg i)
  | .fixed e => do return .fixed (← term e)
  | .recursive => pure .recursive

def fields : List FieldExpr → Run (List FieldRel)
  | [] => pure []
  | e :: es => do
    let f ← field e
    return f :: (← fields es)

def cases : List CaseExpr → Run (List CasePair)
  | [] => pure []
  | e :: es => do
    mention [e.left, e.right]
    let pair := ⟨e.left, e.right, ← fields e.fields⟩
    return pair :: (← cases es)

/-! ## Changing the session -/

def registry : Run Registry := return (← get).engine.theory.registry

def setTheory (f : Theory → Theory) : Run Unit :=
  modify fun s => { s with engine := { s.engine with theory := f s.engine.theory } }

def setRegistry (f : Registry → Registry) : Run Unit :=
  setTheory fun T => { T with registry := f T.registry }

/-- Registers something that gets a number. -/
def register (added : Option (Nat × Registry)) : Run Nat := do
  let some (id, r) := added | fault .indexOverflow
  setRegistry fun _ => r
  return id

def setLocal (name : String) (t : Term) : Run Unit :=
  modify fun s => { s with locals := s.locals.insert name t }

/-- The number of a term, by which a session compares terms. -/
def number (t : Term) : Run UInt32 := do
  let (id, store) := (← get).store.put t
  modify fun s => { s with store := store }
  return id

/-- Asks the engine. -/
def ask {β : Type} (query : Engine → Answer β × Engine) : Run (β × List String) := do
  let s ← get
  let (answer, engine) := query s.engine
  set { s with engine := engine }
  match answer.result with
  | .ok b => return (b, answer.log)
  | .error f => fault f

/-- A term that was built, which also becomes a local if it is to have a name. -/
def built (name : Option String) (t : Option Term) : Run Reply := do
  match name, t with
  | some x, some t => setLocal x (← share t)
  | _, _ => pure ()
  return .built t

def assume : List Hypothesis → Run Unit
  | [] => pure ()
  | h :: hs => do
    let _ ← register ((← registry).addFact? h.rel h.left h.right h.witness)
    assume hs

end Run

/-- A term shifted by an offset, unless an index would leave its range. -/
def shifted? (t : Term) (offset : Nat) : Option Term :=
  if t.any (indexBound ≤ · + offset) then none else some (t.rename offset)

open Run in
def exec : Command → Run Reply
  | .limits limits => do
    setTheory fun T => { T with limits := limits }
    return .limits limits
  | .relators => do
    mention (Relator.all.flatMap Relator.symbols)
    setTheory Theory.addRelators
    modify fun s => { s with relators := true }
    return .ruleCount (← get).engine.theory.rules.length
  | .bindLocal name e => do
    setLocal name (← term e)
    return .done
  | .combinator head variances => do
    mention [head]
    setRegistry fun r => { r with variances := r.variances.insert head variances }
    return .done
  | .fact rel left right witness => do
    let rel ← term rel
    let left ← term left
    let right ← term right
    let witness ← term witness
    return .id (← register ((← registry).addFact? rel left right witness))
  | .selfFact rel t witness => do
    let rel ← term rel
    let t ← term t
    let witness ← term witness
    return .id (← register ((← registry).addSelf? rel t witness))
  | .inclusion lesser greater witness => do
    let lesser ← term lesser
    let greater ← term greater
    let witness ← term witness
    return .id (← register ((← registry).addInclusion? lesser greater witness))
  | .parameters head count => do
    mention [head]
    setRegistry fun r => { r with parameters := r.parameters.insert head count }
    return .done
  | .scheme head cs => do
    mention [head]
    let cs ← cases cs
    setRegistry fun r => { r with schemes := r.schemes.insert head ⟨cs⟩ }
    return .done
  | .computation t value => do
    let t ← term t
    let value ← term value
    setRegistry fun r => { r with computations := r.computations.insert t value }
    return .done
  | .rule name priority pattern body => do
    if let .related (.named head) := pattern then mention [head]
    let locals := (← get).locals
    setTheory (·.addRule ⟨name, priority, pattern, body.method locals⟩)
    return .ruleCount (← get).engine.theory.rules.length
  | .solve g shown => do
    let g ← goal g
    let (solution, log) ← ask (·.solve g)
    modify fun s => { s with last := some solution }
    return .solution solution shown log
  | .reify => do
    match (← get).last.bind (·.witness?) with
    | some w => return .pending w.items
    | none => return .nothing
  | .discharge index assuming shown => do
    match (← get).last.bind (·.witness?) with
    | none => return .nothing
    | some w =>
      let p ← require w.items[index]?
      if assuming then assume p.hyps
      let (solution, log) ← ask (·.solve p.goal)
      return .solution solution shown log
  | .transport lifted edge t value shown => do
    let t ← term t
    let value ← term value
    match ← ask (·.transport lifted edge ⟨t, value⟩) with
    | (.ok result, log) =>
      modify fun s => { s with last := some result.residual }
      return .transported result shown log
    | (.error why, log) => return .failure why log
  | .lookupFacts side head arity => do
    mention [head]
    let r ← registry
    return .ids (match arity with
      | some n => r.byShape side head n
      | none => r.byHead side head)
  | .getFact id => do
    match (← registry).facts[id]? with
    | some f => return .fact f
    | none => return .nothing
  | .getInclusion id => do
    match (← registry).inclusions[id]? with
    | some f => return .inclusion f
    | none => return .nothing
  | .getHead head => do
    mention [head]
    let r ← registry
    return .head (r.parameters.get? head) (r.variances.get? head)
      ((r.schemes.get? head).map (·.cases)) (Reserved.all.contains head)
  | .getCase head ctor => do
    mention [head, ctor]
    let scheme := (← registry).schemes.get? head
    return .casesFor (scheme.bind (·.forLeft? ctor)) (scheme.bind (·.forRight? ctor))
  | .getComputation t => do
    let t ← term t
    return .value ((← registry).computations.get? t)
  | .counts => do
    let T := (← get).engine.theory
    return .counts T.registry.facts.size T.registry.inclusions.size T.rules.length
  | .listRules => do
    return .rules ((← get).engine.theory.rules.map fun r => (r.name, r.priority))
  | .relator r args => do
    let args ← terms args
    if (← get).relators ∧ args.length = r.arity then return .built (some (.app r.head args))
    else malformed
  | .fieldRelation f whole args => do
    let f ← field f
    let whole ← term whole
    let args ← terms args
    return .value (f.relation? whole args)
  | .symbol name => do
    let known := (← get).engine.symbols.knows name
    mention [name]
    return .symbol known name (Symbols.isMarked name) (Reserved.all.contains name)
  | .mint hint => do
    let (name, symbols) := (← get).engine.symbols.mint hint
    modify fun s => { s with engine := { s.engine with symbols := symbols } }
    return .minted name (Symbols.isMarked name)
  | .term t => do return .term (← term t)
  | .same a b => do
    let a ← term a
    let b ← term b
    return .same ((← number a) = (← number b))
  | .goal g => do
    let g ← goal g
    return .goal g (g.map (← get).subst.resolve)
  | .apply t args name => do
    let t ← term t
    let args ← terms args
    built name (t.extend? args)
  | .take t length name => do
    let t ← term t
    built name (t.take? length)
  | .rename t offset name => do
    let t ← term t
    match shifted? t offset with
    | some t => built name (some t)
    | none => fault .indexOverflow
  | .view rel => do
    let rel ← term rel
    return .view ((← get).subst.toSubst.view rel)
  | .family family left right edge => do
    let family ← term family
    let left ← term left
    let right ← term right
    let edge ← term edge
    return .relation ((← get).subst.toSubst.family? family left right edge)
  | .fits g patterns => do
    let g ← goal g
    for p in patterns do
      if let .related (.named head) := p then mention [head]
    let σ := (← get).subst.toSubst
    return .fits (patterns.map fun p => p.fits σ g)
  | .unify a b => do
    let a ← term a
    let b ← term b
    let (ok, β) := (← get).subst.unify a b
    modify fun s => { s with subst := β }
    return .unified ok β.toSubst
  | .bind i t => do
    let t ← term t
    let β := (← get).subst
    if β.isBound i then fault .boundTwice
    else
      modify fun s => { s with subst := β.bind i t }
      return .subst (β.bind i t).toSubst
  | .lookup i => do return .lookup ((← get).subst.get? i)
  | .occurs i t => do
    let t ← term t
    return .occurs ((← get).subst.occurs i t)
  | .walk t => do
    let t ← term t
    return .built (some ((← get).subst.walk t))
  | .substitute t => do
    let t ← term t
    let u := (← get).subst.resolve t
    return .substituted u (u = t)
  | .checkpoint name => do
    let n := (← get).subst.size
    modify fun s => { s with marks := s.marks.insert name n }
    return .length n
  | .rollback name => do
    let mark ← require ((← get).marks.get? name)
    let β := (← get).subst.rollback mark
    modify fun s => { s with subst := β }
    return .subst β.toSubst
  | .defer g hs => do
    let g ← goal g
    let hs ← hyps hs
    let position := (← get).delayed.length
    modify fun s => { s with delayed := s.delayed ++ [⟨g, hs⟩] }
    return .deferred position (position + 1)
  | .truncate length => do
    let delayed := (← get).delayed.take length
    modify fun s => { s with delayed := delayed }
    return .delayed delayed.length
  | .snapshot => do return .conj (Monotonicity.snapshot (← get).delayed)
  | .close => do return .conj (Monotonicity.close (← get).subst.toSubst (← get).delayed)
  | .conj gs closed => do
    let gs ← goals gs
    return .conj (.ofList (if closed then .unit else .hole) (gs.map fun g => ⟨g, []⟩))
  | .proof p uses => do return .proof (← proof p) uses
  | .stats stats => do
    match stats.report? with
    | some text => return .report text
    | none => fault .undoneExceedsMade
  | .failure why => return .failure why []

/-- Carries out a command in a session. -/
def step (s : Session) (c : Command) : Except Refusal Reply × Session := (exec c).run s

end Session

end Monotonicity
