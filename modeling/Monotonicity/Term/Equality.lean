import Monotonicity.Quick
import Monotonicity.Term.Basic
import Std.Data.HashMap

/-!
# Equality of terms

Equality is decided by going down two terms at once. A subterm that stands in many places is one
object of a running program, and to go down it again at each of them may take far too long. So a
program looks before it goes down a pair of subterms: two that are one object are equal, two with
different hashes are not, and what was decided about a pair of objects is not decided again.
-/

namespace Monotonicity

namespace Term

/-- What to do about a pair of subterms, given how to go down it. `alone` says that there are no
further ones beside it, `C` is what is kept from pair to pair. -/
abbrev PairVisit (C : Type) : Type :=
  (alone : Bool) → (a b : Term) → (C → Decidable (a = b) × C) → C → Decidable (a = b) × C

mutual
/-- Decides whether two terms are equal by going down both. -/
def decideEq {C : Type} (visit : PairVisit C) : (a b : Term) → C → Decidable (a = b) × C
  | .var i, .var j, c => (decidable_of_iff (i = j) (by simp), c)
  | .app f xs, .app g ys, c =>
    if h : f = g then
      let (d, c) := decideEqAll visit true xs ys c
      (@decidable_of_iff _ (xs = ys) (by simp [h]) d, c)
    else (isFalse (by simp [h]), c)
  | .cases s xs, .cases t ys, c =>
    match visit false s t (decideEq visit s t) c with
    | (isTrue h, c) =>
      let (d, c) := decideEqArms visit xs ys c
      (@decidable_of_iff _ (xs = ys) (by simp [h]) d, c)
    | (isFalse h, c) => (isFalse (by simp [h]), c)
  | .var _, .app _ _, c => (isFalse (by simp), c)
  | .var _, .cases _ _, c => (isFalse (by simp), c)
  | .app _ _, .var _, c => (isFalse (by simp), c)
  | .app _ _, .cases _ _, c => (isFalse (by simp), c)
  | .cases _ _, .var _, c => (isFalse (by simp), c)
  | .cases _ _, .app _ _, c => (isFalse (by simp), c)

def decideEqAll {C : Type} (visit : PairVisit C) (first : Bool) :
    (xs ys : List Term) → C → Decidable (xs = ys) × C
  | [], [], c => (isTrue rfl, c)
  | [], _ :: _, c => (isFalse (by simp), c)
  | _ :: _, [], c => (isFalse (by simp), c)
  | x :: xs, y :: ys, c =>
    match visit (first && xs.isEmpty) x y (decideEq visit x y) c with
    | (isTrue h, c) =>
      let (d, c) := decideEqAll visit false xs ys c
      (@decidable_of_iff _ (xs = ys) (by simp [h]) d, c)
    | (isFalse h, c) => (isFalse (by simp [h]), c)

def decideEqArms {C : Type} (visit : PairVisit C) :
    (xs ys : List (Arm Term)) → C → Decidable (xs = ys) × C
  | [], [], c => (isTrue rfl, c)
  | [], _ :: _, c => (isFalse (by simp), c)
  | _ :: _, [], c => (isFalse (by simp), c)
  | ⟨k, n, x⟩ :: xs, ⟨l, m, y⟩ :: ys, c =>
    if h : k = l ∧ n = m then
      match visit false x y (decideEq visit x y) c with
      | (isTrue e, c) =>
        let (d, c) := decideEqArms visit xs ys c
        (@decidable_of_iff _ (xs = ys) (by simp [h, e]) d, c)
      | (isFalse e, c) => (isFalse (by simp [e]), c)
    else (isFalse (fun e => h (by simp at e; exact ⟨e.1.1, e.1.2.1⟩)), c)
end

/-! ## Without looking -/

def PairVisit.plain : PairVisit Unit := fun _ _ _ down => down

/-- Decides equality by going down both terms all the way. -/
def decEq (a b : Term) : Decidable (a = b) := (decideEq .plain a b ()).1

def decEqAll (xs ys : List Term) : Decidable (xs = ys) := (decideEqAll .plain true xs ys ()).1

def test (a b : Term) : Test a b := ⟨@decide _ (decEq a b), by simp⟩

def testAll (xs ys : List Term) : Test xs ys := ⟨@decide _ (decEqAll xs ys), by simp⟩

/-! ## Looking first -/

structure Judgement where
  left : Term
  right : Term
  decision : Decidable (left = right)

/-- What was decided, by the addresses of the two objects. -/
abbrev Judgements : Type := Squash (Std.HashMap (USize × USize) Judgement)

/-- What was decided about two objects, or else what `down` decides. -/
def Judgements.visit (u v : USize) (a b : Term) (down : Judgements → Decidable (a = b) × Judgements)
    (made : Judgements) : Decidable (a = b) × Judgements :=
  made.lift fun judgements =>
    match judgements[(u, v)]? with
    | some ⟨a', b', d⟩ =>
      ifIdentical a' a (fun _ => test a' a)
        (fun ha => ifIdentical b' b (fun _ => test b' b)
          (fun hb => (ha ▸ hb ▸ d, Squash.mk judgements))
          fun _ => down (Squash.mk judgements))
        fun _ => down (Squash.mk judgements)
    | none =>
      let (d, made) := down (Squash.mk judgements)
      (d, made.lift fun judgements => Squash.mk (judgements.insert (u, v) ⟨a, b, d⟩))

/-- Goes down a pair only if it has to. -/
@[inline] def PairVisit.looking : PairVisit Judgements := fun alone a b down made =>
  ifIdentical a b (fun _ => test a b) (fun h => (isTrue h, made)) fun _ =>
    if h : a.hash = b.hash then
      if alone || a.isLeaf then down made
      else withAddress a fun u => withAddress b fun v => made.visit u v a b down
    else (isFalse fun e => h (congrArg hash e), made)

instance : DecidableEq Term := fun a b =>
  quickly a (fun _ => decEq a b) fun _ =>
    ⟨(PairVisit.looking true a b (decideEq .looking a b) (Squash.mk {})).1, Subsingleton.elim _ _⟩

instance : Hashable Term := ⟨Term.hash⟩

end Term

end Monotonicity
