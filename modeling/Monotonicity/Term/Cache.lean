import Monotonicity.Term.Replacement

/-!
# Kept copies of terms

A cache keeps one copy of every term that was put into it, and `share` gives the copy instead of the
term. Equal terms then become one object of a running program, with all of their subterms, and that
is seen at once when they are compared.

To the logic a copy is the term itself, and there is one cache only: `share_eq` says that to share a
term does nothing.
-/

namespace Monotonicity

/-- Copies of terms by their hashes: a leaf has a few, and the branches of a node are told apart by
five bits of the hash. -/
inductive Copies where
  | leaf (terms : List Term)
  | node (branches : Array Copies)

namespace Copies

def branch (level : Nat) (t : Term) : Nat := ((t.hash >>> (5 * level).toUInt64) &&& 31).toNat

def near (t : Term) : (level : Nat) → Copies → List Term
  | _, .leaf ts => ts
  | 0, .node _ => []
  | level + 1, .node branches =>
    match branches[branch level t]? with
    | some copies => near t level copies
    | none => []

/-- Adds a term. A leaf that has enough of them becomes a node. -/
def insert : (level : Nat) → Term → Copies → Copies
  | 0, t, .leaf ts => .leaf (t :: ts)
  | 0, _, .node branches => .node branches
  | level + 1, t, .leaf ts =>
    if ts.length < 4 then .leaf (t :: ts)
    else .node <| (t :: ts).foldl
      (fun branches u => branches.modify (branch level u) (insert level u))
      (.replicate 32 (.leaf []))
  | level + 1, t, .node branches => .node (branches.modify (branch level t) (insert level t))

def levels : Nat := 12

end Copies

def Cache : Type := Squash Copies

namespace Cache

instance : Subsingleton Cache := inferInstanceAs (Subsingleton (Squash _))

instance : EmptyCollection Cache := ⟨Squash.mk (.leaf [])⟩

/-- A copy of a term, as one in which nothing is replaced. -/
abbrev Copy (t : Term) : Type := Exactly (t.subst .var)

def pick? (t : Term) : List Term → Option (Copy t)
  | [] => none
  | u :: us => if h : u = t then some ⟨u, by rw [h, Term.subst_var]⟩ else pick? t us

/-- The kept copy of a term, or else the one that `make` makes, which is kept. -/
def keep {S : Type} [Subsingleton S] (t : Term) (make : Cache × S → Copy t × Cache × S) :
    Cache × S → Copy t × Cache × S
  | (cache, s) => Squash.lift cache fun copies =>
    match pick? t (copies.near t Copies.levels) with
    | some copy => (copy, Squash.mk copies, s)
    | none =>
      let (copy, cache, s) := make (Squash.mk copies, s)
      (copy, Squash.lift cache fun copies =>
        Squash.mk (copies.insert Copies.levels copy.val), s)

/-- Makes copies of subterms first, and goes down an object once. -/
def visit : Term.Visit .var (Cache × Term.Findings Copy) := fun alone t down =>
  if alone || t.isLeaf then keep t down else Term.Findings.visit t (keep t down)

def share (t : Term) (cache : Cache) : Term × Cache :=
  quickly t (fun _ => (t, cache)) fun _ =>
    let (copy, cache, _) := visit true t (t.replaceBy .var visit) (cache, Squash.mk {})
    ⟨(copy.val, cache), Prod.ext (copy.property.trans t.subst_var) (Subsingleton.elim _ _)⟩

@[simp] theorem share_eq (t : Term) (cache : Cache) : share t cache = (t, cache) := by
  simp [share]

end Cache

end Monotonicity
