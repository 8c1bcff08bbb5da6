import Monotonicity.Query.Transport
import Monotonicity.Search.Solver

/-!
# Engines

An engine holds a theory and the symbols in use. Queries leave the theory as it is; they may mint
symbols, and the count of those goes on from query to query. Copies of terms are kept as well.
-/

namespace Monotonicity

/-- A theory to search in, and the symbols in use. -/
structure Engine where
  theory : Theory
  symbols : Symbols
  cache : Cache := {}

/-- Why an operation has no result at all. -/
inductive Fault where
  | indexOverflow
  | boundTwice
  /-- More rule applications were undone than made. -/
  | undoneExceedsMade
deriving DecidableEq, Repr

/-- The result of a query: its value or a fault, and what it wrote to the log. -/
structure Answer (α : Type) where
  result : Except Fault α
  log : List String := []

namespace Engine

def new (limits : Limits) : Engine where
  theory := .standard limits
  symbols := Symbols.mention {} Reserved.all

/-- The state in which a query starts if the caller's placeholders are below `bound`. -/
def start (E : Engine) (bound : Nat) : State :=
  { ledger := { nextVar := bound, symbols := E.symbols, cache := E.cache } }

/-- Runs a search over the caller's terms, whose placeholders are below the bound it is given, and
reads its outcome. -/
def query {α β : Type} (E : Engine) (terms : List Term) (search : Nat → Search α)
    (accept : Nat → α → State → β) (refuse : Nat → Failure → State → β) : Answer β × Engine :=
  match schematic? terms with
  | none => (⟨.error .indexOverflow, []⟩, E)
  | some bound =>
    let (result, l) : Except Fault β × Ledger :=
      match (search bound).run (E.start bound) with
      | .success a final => (.ok (accept bound a final), final.ledger)
      | .failure why final => (.ok (refuse bound why final), final.ledger)
      | .overflow l => (.error .indexOverflow, l)
    (⟨result, l.log.reverse⟩, { E with symbols := l.symbols, cache := l.cache })

theorem theory_query {α β : Type} (E : Engine) (terms : List Term) (search : Nat → Search α)
    (accept : Nat → α → State → β) (refuse : Nat → Failure → State → β) :
    (E.query terms search accept refuse).2.theory = E.theory := by
  unfold query
  split <;> rfl

def search (E : Engine) (goal : Goal) : Search Proof :=
  Search.solve E.theory E.theory.limits.maxDepth Proof goal pure

def solve (E : Engine) (goal : Goal) : Answer Solution × Engine :=
  E.query goal.terms (fun _ => E.search goal) (Solution.ofProof goal) (Solution.ofFailure goal)

/-- `transport`: one fact along another, given a computation. A number without a fact is an error.
-/
def transport (E : Engine) (lifted edge : Nat) (c : Computation) :
    Answer (Except Failure Transported) × Engine :=
  match E.theory.registry.facts[lifted]?, E.theory.registry.facts[edge]? with
  | some f, some e =>
    E.query [c.term, c.value]
      (fun bound => Search.transport E.theory (Search.solve E.theory E.theory.limits.maxDepth)
        bound lifted edge f e c)
      (fun _ t _ => .ok t) (fun _ why _ => .error why)
  | none, _ => (⟨.ok (.error (.unknownFact lifted)), []⟩, E)
  | some _, none => (⟨.ok (.error (.unknownFact edge)), []⟩, E)

theorem theory_transport (E : Engine) (lifted edge : Nat) (c : Computation) :
    (E.transport lifted edge c).2.theory = E.theory := by
  unfold transport
  split
  · exact theory_query ..
  · rfl
  · rfl

end Engine

end Monotonicity
