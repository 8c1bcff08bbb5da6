import Monotonicity.Term.Replacement
import Std.Data.TreeMap

/-!
# Substitutions

A substitution is a trail of bindings. Bindings are only ever added, so a mark on the trail is its
length and going back to a mark drops what came after it. The bound terms are kept as they were when
they were bound: a placeholder inside one may be bound as well, earlier or later. `walk` follows
such chains at the root of a term and `resolve` everywhere in it.

Both follow at most as many bindings in a row as there are: the trail is counted down while the
bindings are followed. A trail in which no placeholder reaches itself through its bindings has no
longer chain, so there the limit is never felt.

Every trail carries an index of its bindings along. `get?_eq_lookup` says that looking a placeholder
up there is looking it up on the trail.
-/

namespace Monotonicity

/-- A trail of bindings. -/
inductive Subst where
  | empty
  | bind (σ : Subst) (i : Nat) (t : Term)
with
  /-- The bound terms by their placeholders. -/
  @[computed_field] bound : Subst → Std.TreeMap Nat Term
    | .empty => {}
    | .bind σ i t => σ.bound.insert i t
  @[computed_field] size : Subst → Nat
    | .empty => 0
    | .bind σ _ _ => σ.size + 1
deriving Repr

instance : EmptyCollection Subst := ⟨.empty⟩

instance : Inhabited Subst := ⟨.empty⟩

namespace Subst

/-- The bindings, the latest first; `len` counts them. -/
def trail : Subst → List (Nat × Term)
  | .empty => []
  | .bind σ i t => (i, t) :: σ.trail

/-- `iter`: the bindings in the order in which they were made. -/
def toList (σ : Subst) : List (Nat × Term) := σ.trail.reverse

/-- `get`: what a placeholder is bound to. `is_bound` and `is_empty` are below. -/
def get? (σ : Subst) (i : Nat) : Option Term := σ.bound[i]?

def isBound (σ : Subst) (i : Nat) : Bool := (σ.get? i).isSome

def isEmpty (σ : Subst) : Bool := σ.trail.isEmpty

def dropLast : Nat → Subst → Subst
  | n + 1, .bind σ _ _ => dropLast n σ
  | _, σ => σ

/-- `rollback`: goes back to the first `mark` bindings. -/
def rollback (σ : Subst) (mark : Nat) : Subst := dropLast (σ.size - mark) σ

@[simp] theorem get?_empty (i : Nat) : get? .empty i = none := by
  simp [get?, bound]

@[simp] theorem get?_bind_self (σ : Subst) (i : Nat) (t : Term) : (σ.bind i t).get? i = some t := by
  simp [get?, bound]

theorem get?_bind_of_ne (σ : Subst) {i j : Nat} (h : j ≠ i) (t : Term) :
    (σ.bind i t).get? j = σ.get? j := by
  have : compare i j ≠ .eq := by simpa using h.symm
  simp [get?, bound, Std.TreeMap.getElem?_insert, this]

theorem get?_eq_lookup (σ : Subst) (i : Nat) : σ.get? i = σ.trail.lookup i := by
  induction σ with
  | empty => simp [trail]
  | bind σ j t ih =>
    by_cases h : i = j
    · subst h; simp [trail]
    · have hb : (i == j) = false := by simpa using h
      simp [get?_bind_of_ne σ h, trail, List.lookup_cons, hb, ih]

@[simp] theorem size_bind (σ : Subst) (i : Nat) (t : Term) : (σ.bind i t).size = σ.size + 1 := by
  simp [size]

theorem size_eq_length_trail (σ : Subst) : σ.size = σ.trail.length := by
  induction σ with
  | empty => simp [size, trail]
  | bind σ i t ih => simp [trail, ih]

@[simp] theorem toList_bind (σ : Subst) (i : Nat) (t : Term) :
    (σ.bind i t).toList = σ.toList ++ [(i, t)] := by
  simp [toList, trail]

theorem trail_dropLast (n : Nat) (σ : Subst) : (dropLast n σ).trail = σ.trail.drop n := by
  fun_induction dropLast n σ with
  | case1 n σ i t ih => simpa [trail] using ih
  | case2 n σ h =>
    cases n with
    | zero => rfl
    | succ n =>
      cases σ with
      | empty => rfl
      | bind σ i t => exact (h n σ i t rfl rfl).elim

/-! ## Following bindings -/

def walkFor (σ : Subst) : Subst → Term → Term
  | .bind rest _ _, .var i =>
    match σ.get? i with
    | some t => walkFor σ rest t
    | none => .var i
  | _, t => t

/-- `walk`: the term with the bindings at its root followed. -/
def walk (σ : Subst) (t : Term) : Term := σ.walkFor σ t

/-- Replaces bound placeholders, following at most as many bindings one inside the other as there
are on a trail. -/
def resolveFor (σ : Subst) : Subst → Term → Term
  | .empty, t => t
  | .bind rest _ _, t => t.replace fun i =>
    match σ.get? i with
    | some u => resolveFor σ rest u
    | none => .var i

/-- `apply_subst`: the term with every bound placeholder replaced. -/
def resolve (σ : Subst) (t : Term) : Term := σ.resolveFor σ t

/-- Whether `p` holds of some unbound placeholder reached from a term by at most as many bindings
one inside the other as there are on a trail. -/
def reachesFor (σ : Subst) (p : Nat → Bool) : Subst → Term → Bool
  | .empty, t => t.any fun i => !σ.isBound i && p i
  | .bind rest _ _, t => t.any fun i =>
    match σ.get? i with
    | some u => reachesFor σ p rest u
    | none => p i

/-- `occurs`: whether placeholder `i` is left in a term once its bindings are followed. -/
def occurs (σ : Subst) (i : Nat) (t : Term) : Bool := σ.reachesFor (· == i) σ t

end Subst

end Monotonicity
