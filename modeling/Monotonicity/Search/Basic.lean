import Monotonicity.Goal.Obligation
import Monotonicity.Proof
import Monotonicity.Search.Stats
import Monotonicity.Term.Cache
import Monotonicity.Term.Symbols
import Monotonicity.Theory
import Monotonicity.Substitution.Unification

/-!
# Searches

A search runs from a state and ends in success, in failure, or because the placeholder indices ran
out. It leaves the state behind as it is at that moment, also when it fails: what a failed branch
bound, assumed or put off stands there until somebody takes it back. `attempt` does so, by going
back to a mark on the trail of bindings, on the hypotheses and on the obligations. The ledger
is never taken back; it counts on through every branch.

Next to its outcome a run has a trace. It lists the states that the search comes to, one after each
change, also those that are taken back later, and the blocks of placeholders that are set aside.
What holds throughout a run is said of its trace; no search looks at it.

The hypotheses and the goals in progress belong to the place where a goal is being proved. `within`
changes them for the time of one search and changes them back at its end, however it ends.

Proofs are sought in continuation-passing style. A prover hands the proofs of a goal one at a time
to a continuation that carries on with the rest of the search; if that fails, the prover looks for
the next proof. While the continuation runs, the prover's own hypotheses and goal are withdrawn.
-/

namespace Monotonicity

/-- What counts on through all branches of a search; `undo` leaves it alone. -/
structure Ledger where
  nextVar : Nat
  symbols : Symbols
  stats : Stats := {}
  /-- How many bridges were begun; they are numbered from 0. -/
  bridges : Nat := 0
  /-- The numbers of the bridges in progress that some proof crossed. -/
  crossed : List Nat := []
  log : List String := []
  cache : Cache := {}

structure State where
  subst : Subst := {}
  /-- The hypotheses in scope, the outermost first. -/
  hyps : List Hypothesis := []
  delayed : List Pending := []
  active : List Goal := []
  depth : Nat := 0
  ledger : Ledger

/-- A moment to go back to, by the lengths of what only grows after it. -/
structure Mark where
  subst : Nat
  hyps : Nat
  delayed : Nat

namespace State

/-- `mark`: the mark of this moment. -/
def mark (s : State) : Mark := ⟨s.subst.size, s.hyps.length, s.delayed.length⟩

/-- `undo`: takes back what was bound, assumed and put off after a mark. -/
def undo (s : State) (m : Mark) : State :=
  { s with
    subst := s.subst.rollback m.subst
    hyps := s.hyps.take m.hyps
    delayed := s.delayed.take m.delayed }

def assume (s : State) (hyps : List Hypothesis) : State := { s with hyps := s.hyps ++ hyps }

def withdraw (s : State) (n : Nat) : State := { s with hyps := s.hyps.take n }

def enter (s : State) (goal : Goal) : State :=
  { s with active := goal :: s.active, depth := s.depth + 1 }

def leave (s : State) : State := { s with active := s.active.tail, depth := s.depth - 1 }

end State

inductive Outcome (α : Type) where
  | success (value : α) (final : State)
  | failure (why : Failure) (final : State)
  | overflow (ledger : Ledger)

def Outcome.mapState {α : Type} (f : State → State) : Outcome α → Outcome α
  | .success a s => .success a (f s)
  | .failure why s => .failure why (f s)
  | .overflow l => .overflow l

/-- What happens in a run of a search. -/
inductive Event where
  | state (s : State)
  /-- In this state it sets so many placeholders aside, from the next unused one on. -/
  | reserve (s : State) (count : Nat)

def Outcome.events {α : Type} : Outcome α → List Event
  | .success _ s => [.state s]
  | .failure _ s => [.state s]
  | .overflow _ => []

@[ext] structure Search (α : Type) where
  run : State → Outcome α
  /-- What happens in the run from a state, in order. -/
  trace : State → List Event := fun _ => []

/-- A way of proving goals, as `Cont` has it: each proof of a goal goes to the continuation until
one is accepted. -/
abbrev Prover : Type 1 := (ρ : Type) → Goal → (Proof → Search ρ) → Search ρ

def Theory.spent (T : Theory) (l : Ledger) : Bool := T.limits.fuel ≤ l.stats.steps

namespace Search

variable {α β ρ : Type}

instance : Monad Search where
  pure a := { run := fun s => .success a s }
  bind m f :=
    { run := fun s =>
        match m.run s with
        | .success a t => (f a).run t
        | .failure why t => .failure why t
        | .overflow l => .overflow l
      trace := fun s =>
        m.trace s ++
          match m.run s with
          | .success a t => (f a).trace t
          | _ => [] }

@[simp] theorem run_pure (a : α) (s : State) : (pure a : Search α).run s = .success a s := rfl

theorem run_bind (m : Search α) (f : α → Search β) (s : State) :
    (m >>= f).run s =
      match m.run s with
      | .success a t => (f a).run t
      | .failure why t => .failure why t
      | .overflow l => .overflow l := rfl

@[simp] theorem trace_pure (a : α) (s : State) : (pure a : Search α).trace s = [] := rfl

theorem trace_bind (m : Search α) (f : α → Search β) (s : State) :
    (m >>= f).trace s = m.trace s ++
      match m.run s with
      | .success a t => (f a).trace t
      | _ => [] := rfl

instance : LawfulMonad Search := .mk' Search
  (fun m => by
    ext s : 2
    · simp only [Functor.map]
      cases m.run s <;> rfl
    · simp only [Functor.map]
      cases m.run s <;> simp)
  (fun _ _ => rfl)
  (fun m f g => by
    ext s : 2
    · simp only [run_bind]
      cases m.run s <;> rfl
    · simp only [trace_bind, run_bind]
      cases m.run s <;> simp)

/-! ## Failing and recovering -/

def fail (why : Failure) : Search α := { run := fun s => .failure why s }

/-- `no_rule`: fails because no rule applies to a goal. -/
def noRule (goal : Goal) : Search α :=
  { run := fun s => .failure (.noRule (.goal (goal.resolve s.subst))) s }

def noCandidate (goal : Goal) : Search α :=
  { run := fun s => .failure (.noCandidate (.goal (goal.resolve s.subst))) s }

/-- Fails because a candidate's relation does not reach a goal's. -/
def gap (goal : Goal) : Search α :=
  { run := fun s => .failure (.gap (.goal (goal.resolve s.subst))) s }

def exhausted : Search α :=
  { run := fun s => .failure (.exhausted s.depth s.ledger.stats.steps) s }

def require (value : Option α) (otherwise : Search α) : Search α :=
  match value with
  | some a => pure a
  | none => otherwise

/-- Goes on to another search after a failure, from where the failure left the state. -/
def recover (m : Search α) (handler : Failure → Search α) : Search α where
  run s :=
    match m.run s with
    | .failure why t => (handler why).run t
    | .success a t => .success a t
    | .overflow l => .overflow l
  trace s :=
    m.trace s ++
      match m.run s with
      | .failure why t => (handler why).trace t
      | _ => []

theorem run_recover (m : Search α) (handler : Failure → Search α) (s : State) :
    (m.recover handler).run s =
      match m.run s with
      | .failure why t => (handler why).run t
      | .success a t => .success a t
      | .overflow l => .overflow l := rfl

theorem trace_recover (m : Search α) (handler : Failure → Search α) (s : State) :
    (m.recover handler).trace s = m.trace s ++
      match m.run s with
      | .failure why t => (handler why).trace t
      | _ => [] := rfl

/-- `attempt`: runs a search and takes back what it did if it fails. -/
def attempt (m : Search α) : Search α where
  run s :=
    match m.run s with
    | .failure why t => .failure why (t.undo s.mark)
    | .success a t => .success a t
    | .overflow l => .overflow l
  trace s :=
    m.trace s ++
      match m.run s with
      | .failure _ t => [.state (t.undo s.mark)]
      | _ => []

/-- Runs a search in a changed state, and changes the state again at its end. -/
def within (before after : State → State) (m : Search α) : Search α where
  run s := (m.run (before s)).mapState after
  trace s :=
    .state (before s) :: (m.trace (before s) ++ ((m.run (before s)).mapState after).events)

/-! ## The state -/

def state : Search State := { run := fun s => .success s s }

def ledger : Search Ledger := { run := fun s => .success s.ledger s }

def subst : Search Subst := { run := fun s => .success s.subst s }

def hyps : Search (List Hypothesis) := { run := fun s => .success s.hyps s }

def active : Search (List Goal) := { run := fun s => .success s.active s }

def depth : Search Nat := { run := fun s => .success s.depth s }

def enterLedger (f : Ledger → Ledger) : Search Unit where
  run s := .success () { s with ledger := f s.ledger }
  trace s := [.state { s with ledger := f s.ledger }]

def count (f : Stats → Stats) : Search Unit :=
  enterLedger fun l => { l with stats := f l.stats }

def assign (a b : Term) : Search Bool where
  run s :=
    match s.subst.unify a b with
    | some σ => .success true { s with subst := σ }
    | none => .success false s
  trace s :=
    match s.subst.unify a b with
    | some σ => [.state { s with subst := σ }]
    | none => []

/-- `unify`: makes two terms equal if possible. It is counted in either case. -/
def unify (a b : Term) : Search Bool := do
  count fun n => { n with unifications := n.unifications + 1 }
  assign a b

/-- `reserve_vars`: sets a block of placeholders aside and gives the first of them. -/
def reserve (count : Nat) : Search Nat where
  run s :=
    let first := s.ledger.nextVar
    if first + count < indexBound then
      .success first { s with ledger := { s.ledger with nextVar := first + count } }
    else .overflow s.ledger
  trace s :=
    let next := s.ledger.nextVar + count
    if next < indexBound then
      [.reserve s count, .state { s with ledger := { s.ledger with nextVar := next } }]
    else []

def freshVar : Search Term := do return .var (← reserve 1)

def freshVars : Nat → Search (List Term)
  | 0 => pure []
  | n + 1 => do
    let t ← freshVar
    return t :: (← freshVars n)

def mention (names : List String) : Search Unit :=
  enterLedger fun l => { l with symbols := l.symbols.mention names }

def share (t : Term) : Search Term where
  run s :=
    let (copy, cache) := s.ledger.cache.share t
    .success copy { s with ledger := { s.ledger with cache := cache } }

@[simp] theorem share_eq_pure (t : Term) : share t = pure t := by
  ext s : 2
  · simp [share]
  · rfl

def shareGoal : Goal → Search Goal
  | .related rel left right => do return .related (← share rel) (← share left) (← share right)
  | .subrel lesser greater => do return .subrel (← share lesser) (← share greater)

def shareHyp (h : Hypothesis) : Search Hypothesis := do
  return ⟨← share h.rel, ← share h.left, ← share h.right, ← share h.witness⟩

def freshConst (hint : String) : Search Term := do
  let (name, symbols) := (← ledger).symbols.mint hint
  enterLedger fun l => { l with symbols := symbols }
  return .const name

def freshConsts (hint : String) : Nat → Search (List Term)
  | 0 => pure []
  | n + 1 => do
    let t ← freshConst hint
    return t :: (← freshConsts hint n)

def append (p : Pending) : Search Nat where
  run s := .success s.delayed.length { s with delayed := s.delayed ++ [p] }
  trace s := [.state { s with delayed := s.delayed ++ [p] }]

/-- `defer`: puts a goal off, with the hypotheses in scope. -/
def defer (goal : Goal) : Search Proof := do
  count fun n => { n with deferrals := n.deferrals + 1 }
  return .deferred (← append ⟨goal.resolve (← subst), ← hyps⟩)

def logLimit : Nat := 400

def note (line : String) : Search Unit :=
  enterLedger fun l => if l.log.length < logLimit then { l with log := line :: l.log } else l

/-! ## Alternatives -/

/-- Fails with the best failure so far, or in another way if there is none. -/
def failBest (otherwise : Search α) : Option Failure → Search α
  | some why => fail why
  | none => otherwise

/-- After a failure, goes on unless the steps are used up: then the failure stands. -/
def unlessSpent (T : Theory) (why : Failure) (next : Search α) : Search α := do
  if T.spent (← ledger) then fail why else next

/-- Tries alternatives in order until one succeeds, takes back what each of them did if it fails,
and goes on to `otherwise` with the most specific failure. Once the steps are used up, the failure
at hand is the answer. -/
def tryEach (T : Theory) (run : α → Search ρ) (otherwise : Option Failure → Search ρ) :
    List α → Option Failure → Search ρ
  | [], best => otherwise best
  | a :: rest, best =>
    (attempt (run a)).recover fun why =>
      unlessSpent T why (tryEach T run otherwise rest (some (why.orElse best)))

/-! ## Bridges -/

def beginBridge : Search Nat := do
  let number := (← ledger).bridges
  enterLedger fun l => { l with bridges := number + 1 }
  return number

/-- Runs a search whose proofs go on to `k`. If it fails, `onFailure` is told whether any proof got
as far as `k`. -/
def bridging (search : (Proof → Search ρ) → Search ρ) (k : Proof → Search ρ)
    (onFailure : Bool → Failure → Search ρ) : Search ρ := do
  let number ← beginBridge
  let cross (p : Proof) : Search ρ := do
    enterLedger fun l => { l with crossed := l.crossed.insert number }
    k p
  (search cross).recover fun why => do
    -- the ledger outlives the failure, so this tells of every proof that got across
    let crossed := (← ledger).crossed.contains number
    enterLedger fun l => { l with crossed := l.crossed.erase number }
    onFailure crossed why

/-! ## Scopes -/

def inside (goal : Goal) (m : Search α) : Search α := do
  let now := (← depth) + 1
  count fun n => { n with maxDepth := max n.maxDepth now }
  within (·.enter goal) State.leave m

/-- Runs a search with the innermost goal in progress ended; it is in progress again afterwards. Its
depth has been counted already. -/
def outside (goal : Goal) (m : Search α) : Search α := within State.leave (·.enter goal) m

/-- Runs a search with only the outermost `n` hypotheses in scope. What was withdrawn is in scope
again afterwards. -/
def withdrawing (n : Nat) (m : Search α) : Search α where
  run s := (within (·.withdraw n) (fun t => (t.withdraw n).assume (s.hyps.drop n)) m).run s
  trace s := (within (·.withdraw n) (fun t => (t.withdraw n).assume (s.hyps.drop n)) m).trace s

/-- `solve_assuming`: proves a goal under further hypotheses. They are withdrawn while the
continuation runs, and in scope again when it asks for another proof. -/
def proveAssuming (prove : Prover) (further : List Hypothesis) (goal : Goal)
    (k : Proof → Search ρ) : Search ρ := do
  let n := (← hyps).length
  within (·.assume further) (·.withdraw n) (prove ρ goal fun p => withdrawing n (k p))

/-! ## Several goals -/

/-- `solve_seq`: proves goals from left to right. A goal without a proof makes the one before it
look for its next. -/
def proveAll (prove : Prover) (k : List Proof → Search ρ) : List Goal → List Proof → Search ρ
  | [], done => k done
  | goal :: rest, done => prove ρ goal fun p => proveAll prove k rest (done ++ [p])

end Search

end Monotonicity
