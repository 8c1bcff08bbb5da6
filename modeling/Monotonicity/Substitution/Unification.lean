import Monotonicity.Substitution.Budget

/-!
# Unification

Two terms are made equal by going down both at once. A bound placeholder is followed to its term; an
unbound one is filled. Of two placeholders the one with the larger index is bound; every other
binding is checked for occurrences. Terms that are the same already are left alone, and children are
made equal from the last to the first. No placeholder is bound twice: where bindings run in a circle,
following them ends at a bound placeholder, and the terms cannot be made equal.

If no placeholder reaches itself through the bindings, then on one way down from the root each is
followed on the left once at most. So it is enough to have a unit for every placeholder that may be
bound, and the budget of `unify` has one for each binding and for each node of all terms at hand.
-/

namespace Monotonicity

namespace Subst

/-- Whether two lists of arms have the same constructors with the same arities. -/
def aligned (xs ys : List (Arm Term)) : Bool :=
  xs.map (fun arm => (arm.ctor, arm.arity)) == ys.map fun arm => (arm.ctor, arm.arity)

def bindNew? (σ : Subst) (i : Nat) (t : Term) : Option Subst :=
  if σ.isBound i then none else some (σ.bind i t)

/-- `bind_checked`: binds a placeholder to a term in which it does not occur. -/
def assign? (σ : Subst) (i : Nat) (t : Term) : Option Subst :=
  if σ.occurs i t then none else σ.bindNew? i t

/-- Makes an unbound placeholder equal to a term whose root is not bound. -/
def fill? (σ : Subst) (i : Nat) : Term → Option Subst
  | .var j =>
    if i = j then some σ
    -- of two placeholders the one with the larger index is bound
    else if i < j then σ.bindNew? j (.var i)
    else σ.bindNew? i (.var j)
  | t => σ.assign? i t

theorem bindNew?_eq_some {σ τ : Subst} {i : Nat} {t : Term} :
    σ.bindNew? i t = some τ ↔ σ.get? i = none ∧ σ.bind i t = τ := by
  cases h : σ.get? i <;> simp [bindNew?, isBound, h]

theorem assign?_eq_some {σ τ : Subst} {i : Nat} {t : Term} :
    σ.assign? i t = some τ ↔ σ.occurs i t = false ∧ σ.get? i = none ∧ σ.bind i t = τ := by
  cases h : σ.occurs i t <;> simp [assign?, h, bindNew?_eq_some]

mutual
/-- Makes two terms equal; `follow` does so for the term of a bound placeholder on the left. -/
def descend (follow : Term → Term → Subst → Option Subst) (a b : Term) (σ : Subst) :
    Option Subst :=
  match a with
  | .var i =>
    match σ.get? i with
    | some t => follow t b σ
    | none => σ.fill? i (σ.walk b)
  | .app f xs =>
    let b := σ.walk b
    if a = b then some σ
    else match b with
      | .var j => σ.assign? j a
      | .app g ys =>
        if f = g ∧ xs.length = ys.length then descendAll follow xs ys σ else none
      | .cases _ _ => none
  | .cases s xs =>
    let b := σ.walk b
    if a = b then some σ
    else match b with
      | .var j => σ.assign? j a
      | .cases t ys =>
        if aligned xs ys then (descendArms follow xs ys σ).bind (descend follow s t) else none
      | .app _ _ => none

def descendAll (follow : Term → Term → Subst → Option Subst) :
    List Term → List Term → Subst → Option Subst
  | x :: xs, y :: ys, σ => (descendAll follow xs ys σ).bind (descend follow x y)
  | _, _, σ => some σ

def descendArms (follow : Term → Term → Subst → Option Subst) :
    List (Arm Term) → List (Arm Term) → Subst → Option Subst
  | ⟨_, _, x⟩ :: xs, y :: ys, σ =>
    (descendArms follow xs ys σ).bind (descend follow x y.body)
  | _, _, σ => some σ
end

/-- Makes two terms equal, spending a unit on every bound placeholder on a way down. -/
def unifyFor : Budget → Term → Term → Subst → Option Subst
  | .spent => descend fun _ _ _ => none
  | .more rest => descend (unifyFor (rest ()))

/-- `unify`: extends the substitution so that the two terms become equal, if that can be done. -/
def unify (σ : Subst) (a b : Term) : Option Subst :=
  unifyFor (.ofTerms (.ofSubst σ) [a, b]) a b σ

end Subst

end Monotonicity
