import Monotonicity.Substitution.Unification

/-!
# Bindings in place

A substitution that is changed in place is two structures: the table `bindings` with an entry for
every placeholder up to the largest that was ever bound, and the `trail` of the bound placeholders in
the order in which they were bound. `bind` makes the table longer if it has to, fills an entry and
pushes the placeholder on the trail. `rollback` pops placeholders off the trail until it is as long
as at the checkpoint, and clears the entry of each.

`unify` binds in place as it goes, and rolls back to its own checkpoint if the terms turn out to
clash. Chains of bindings are followed as `Subst` follows them, up to as many bindings as there are.
-/

namespace Monotonicity

/-- A table of bindings, and the trail of the placeholders that were bound. -/
structure Bindings where
  table : Array (Option Term) := #[]
  trail : Array Nat := #[]

namespace Bindings

/-- `get`: the entry of a placeholder, if the table is that long. -/
def get? (β : Bindings) (i : Nat) : Option Term := β.table[i]?.join

def isBound (β : Bindings) (i : Nat) : Bool := (β.get? i).isSome

def isEmpty (β : Bindings) : Bool := β.trail.isEmpty

/-- `len`, which is also what `checkpoint` marks. -/
def size (β : Bindings) : Nat := β.trail.size

/-- `iter`: the placeholders of the trail with their entries. -/
def toList (β : Bindings) : List (Nat × Term) :=
  β.trail.toList.filterMap fun i => (β.get? i).map fun t => (i, t)

def toSubst (β : Bindings) : Subst := β.toList.foldl (fun σ b => σ.bind b.1 b.2) .empty

def bind (β : Bindings) (i : Nat) (t : Term) : Bindings where
  table := (β.table ++ Array.replicate (i + 1 - β.table.size) none).setIfInBounds i (some t)
  trail := β.trail.push i

def rollback (β : Bindings) (mark : Nat) : Bindings :=
  if h : mark < β.trail.size then
    let i := β.trail.back (by omega)
    rollback ⟨β.table.setIfInBounds i none, β.trail.pop⟩ mark
  else β
termination_by β.trail.size

/-! ## Following bindings -/

def walkFor (β : Bindings) : Nat → Term → Term
  | n + 1, .var i =>
    match β.get? i with
    | some t => walkFor β n t
    | none => .var i
  | _, t => t

def walk (β : Bindings) (t : Term) : Term := β.walkFor β.size t

def resolveFor (β : Bindings) : Nat → Term → Term
  | 0, t => t
  | n + 1, t => t.replace fun i =>
    match β.get? i with
    | some u => resolveFor β n u
    | none => .var i

/-- `apply_subst`: without bindings a term stays as it is. -/
def resolve (β : Bindings) (t : Term) : Term := if β.isEmpty then t else β.resolveFor β.size t

def reachesFor (β : Bindings) (p : Nat → Bool) : Nat → Term → Bool
  | 0, t => t.any fun i => !β.isBound i && p i
  | n + 1, t => t.any fun i =>
    match β.get? i with
    | some u => reachesFor β p n u
    | none => p i

def occurs (β : Bindings) (i : Nat) (t : Term) : Bool := β.reachesFor (· == i) β.size t

/-! ## Unification -/

def bindNew (β : Bindings) (i : Nat) (t : Term) : Bool × Bindings :=
  if β.isBound i then (false, β) else (true, β.bind i t)

/-- `bind_checked`: binds a placeholder to a term in which it does not occur. -/
def assign (β : Bindings) (i : Nat) (t : Term) : Bool × Bindings :=
  if β.occurs i t then (false, β) else β.bindNew i t

def fill (β : Bindings) (i : Nat) : Term → Bool × Bindings
  | .var j =>
    if i = j then (true, β)
    else if i < j then β.bindNew j (.var i)
    else β.bindNew i (.var j)
  | t => β.assign i t

/-- Goes on from what was made equal, or stops at a clash with what was bound until then. -/
def andThen (r : Bool × Bindings) (next : Bindings → Bool × Bindings) : Bool × Bindings :=
  if r.1 then next r.2 else r

mutual
/-- Makes two terms equal; `follow` does so for the term of a bound placeholder on the left. -/
def descend (follow : Term → Term → Bindings → Bool × Bindings) (a b : Term) (β : Bindings) :
    Bool × Bindings :=
  match a with
  | .var i =>
    match β.get? i with
    | some t => follow t b β
    | none => β.fill i (β.walk b)
  | .app f xs =>
    let b := β.walk b
    if a = b then (true, β)
    else match b with
      | .var j => β.assign j a
      | .app g ys =>
        if f = g ∧ xs.length = ys.length then descendAll follow xs ys β else (false, β)
      | .cases _ _ => (false, β)
  | .cases s xs =>
    let b := β.walk b
    if a = b then (true, β)
    else match b with
      | .var j => β.assign j a
      | .cases t ys =>
        if Subst.aligned xs ys then andThen (descendArms follow xs ys β) (descend follow s t)
        else (false, β)
      | .app _ _ => (false, β)

def descendAll (follow : Term → Term → Bindings → Bool × Bindings) :
    List Term → List Term → Bindings → Bool × Bindings
  | x :: xs, y :: ys, β => andThen (descendAll follow xs ys β) (descend follow x y)
  | _, _, β => (true, β)

def descendArms (follow : Term → Term → Bindings → Bool × Bindings) :
    List (Arm Term) → List (Arm Term) → Bindings → Bool × Bindings
  | ⟨_, _, x⟩ :: xs, y :: ys, β =>
    andThen (descendArms follow xs ys β) (descend follow x y.body)
  | _, _, β => (true, β)
end

def unifyFor : Budget → Term → Term → Bindings → Bool × Bindings
  | .spent => descend fun _ _ β => (false, β)
  | .more rest => descend (unifyFor (rest ()))

/-- Makes two terms equal as far as that can be done; at a clash the bindings made until then
stand. -/
def descendRoot (β : Bindings) (a b : Term) : Bool × Bindings :=
  unifyFor (.ofTerms (.ofSubst β.toSubst) [a, b]) a b β

/-- `unify`: makes two terms equal, or leaves everything as it was and says so. -/
def unify (β : Bindings) (a b : Term) : Bool × Bindings :=
  let r := β.descendRoot a b
  if r.1 then r else (false, r.2.rollback β.size)

end Bindings

end Monotonicity
