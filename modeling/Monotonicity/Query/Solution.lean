import Monotonicity.Search.Basic

/-!
# Solutions

What a search has to say at its end: the goal under the final bindings, a proof or the failure, what
was put off, the values of the caller's placeholders, and the statistics.
-/

namespace Monotonicity

/-- `SolveOutcome`: how a goal fared. -/
inductive Verdict where
  | solved (proof : Proof)
  /-- Proved, if the obligations put off hold. -/
  | deferred (proof : Proof) (witness : Conj)
  | failed (why : Failure)

structure Solution where
  goal : Goal
  verdict : Verdict
  /-- The values of the caller's placeholders, by index. -/
  bindings : List (Nat × Term)
  stats : Stats

namespace Solution

def isSolved (s : Solution) : Bool := s.verdict matches .solved _

def isDeferred (s : Solution) : Bool := s.verdict matches .deferred _ _

def isFailed (s : Solution) : Bool := s.verdict matches .failed _

def holds (s : Solution) : Bool := !s.isFailed

def proof? (s : Solution) : Option Proof :=
  match s.verdict with
  | .solved p => some p
  | .deferred p _ => some p
  | .failed _ => none

def failure? (s : Solution) : Option Failure :=
  match s.verdict with
  | .failed why => some why
  | _ => none

/-- `witness`: what was put off, if anything. -/
def witness? (s : Solution) : Option Conj :=
  match s.verdict with
  | .deferred _ w => some w
  | _ => none

def pending (s : Solution) : List Pending :=
  match s.verdict with
  | .deferred _ w => w.items
  | _ => []

def binding? (s : Solution) (i : Nat) : Option Term := s.bindings.lookup i

/-- Puts an index into a list that rises strictly. -/
def insertIndex (i : Nat) : List Nat → List Nat
  | [] => [i]
  | j :: rest =>
    if i < j then i :: j :: rest
    else if i = j then j :: rest
    else j :: insertIndex i rest

/-- The values of the placeholders below `bound`, in rising order. -/
def valuesBelow (σ : Subst) (bound : Nat) : List (Nat × Term) :=
  let indices := (σ.trail.map (·.1)).filter (· < bound)
  (indices.foldr insertIndex []).map fun i => (i, σ.resolve (.var i))

/-- `finish`: a solution read off the final state. The caller's placeholders are those below
`bound`. -/
def ofState (goal : Goal) (bound : Nat) (s : State) (verdict : Verdict) : Solution where
  goal := goal.resolve s.subst
  verdict := verdict
  bindings := valuesBelow s.subst bound
  stats := s.ledger.stats

def ofProof (goal : Goal) (bound : Nat) (proof : Proof) (s : State) : Solution :=
  ofState goal bound s <|
    if s.delayed.isEmpty then .solved proof else .deferred proof (close s.subst s.delayed)

@[simp] theorem proof?_ofProof (goal : Goal) (bound : Nat) (p : Proof) (s : State) :
    (ofProof goal bound p s).proof? = some p := by
  cases h : s.delayed.isEmpty <;> simp [ofProof, ofState, proof?, h]

@[simp] theorem isSolved_ofProof (goal : Goal) (bound : Nat) (p : Proof) (s : State) :
    (ofProof goal bound p s).isSolved = s.delayed.isEmpty := by
  cases h : s.delayed.isEmpty <;> simp [ofProof, ofState, isSolved, h]

@[simp] theorem isFailed_ofProof (goal : Goal) (bound : Nat) (p : Proof) (s : State) :
    (ofProof goal bound p s).isFailed = false := by
  cases h : s.delayed.isEmpty <;> simp [ofProof, ofState, isFailed, h]

@[simp] theorem pending_ofProof (goal : Goal) (bound : Nat) (p : Proof) (s : State) :
    (ofProof goal bound p s).pending = s.delayed.map (·.resolve s.subst) := by
  cases h : s.delayed.isEmpty with
  | true => simp_all [ofProof, ofState, pending]
  | false => simp [ofProof, ofState, pending, close, h]

/-- The solution of a goal that failed, at the state that the failure left. -/
def ofFailure (goal : Goal) (bound : Nat) (why : Failure) (s : State) : Solution :=
  ofState goal bound s (.failed why)

end Solution

end Monotonicity
