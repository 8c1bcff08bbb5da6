import Monotonicity.Term.Equality

/-!
# Replacing placeholders in shared terms

`replace` is `subst` for a running program. It leaves alone what has no placeholder, goes through an
object once however many places it stands in, and keeps an object whose placeholders are replaced by
themselves.
-/

namespace Monotonicity

namespace Term

/-- What was worked out about terms, by the addresses of the objects. -/
abbrev Findings (β : Term → Type) : Type := Squash (Std.HashMap USize ((t : Term) × β t))

/-- What was worked out about an object, or else what `down` works out. Whatever else is kept from
object to object is in `S`. -/
def Findings.visit {β : Term → Type} [∀ t, Subsingleton (β t)] {S : Type} [Subsingleton S]
    (t : Term) (down : S × Findings β → β t × S × Findings β) :
    S × Findings β → β t × S × Findings β
  | (s, made) => withAddress t fun u => made.lift fun found =>
    match found[u]? with
    | some ⟨t', b⟩ =>
      ifIdentical t' t (fun _ => test t' t) (fun h => (h ▸ b, s, Squash.mk found))
        fun _ => down (s, Squash.mk found)
    | none =>
      let (b, s, made) := down (s, Squash.mk found)
      (b, s, made.lift fun found => Squash.mk (found.insert u ⟨t, b⟩))

/-- What to do about a subterm, given how to go down it. `alone` says that there are no further ones
beside it, `C` is what is kept from subterm to subterm. -/
abbrev Visit (f : Nat → Term) (C : Type) : Type :=
  (alone : Bool) → (t : Term) → (C → Exactly (t.subst f) × C) → C → Exactly (t.subst f) × C

mutual
/-- Replaces placeholders, going down as `visit` says. -/
def replaceBy (f : Nat → Term) {C : Type} [Subsingleton C] (visit : Visit f C) (t : Term) (c : C) :
    Exactly (t.subst f) × C :=
  match t with
  | .var i => (⟨f i, rfl⟩, c)
  | whole@is:(.app head args) =>
    let (us, c) := replaceAllBy f visit true args c
    ifIdentical us.val args (fun _ => testAll _ _)
      (fun h => (⟨whole, by simp [subst, ← us.property, h, is]⟩, c))
      fun _ => (⟨.app head us.val, by simp [subst, us.property]⟩, c)
  | .cases s arms =>
    let (s', c) := visit false s (replaceBy f visit s) c
    let (arms', c) := replaceArmsBy f visit arms c
    (⟨.cases s'.val arms'.val, by simp [subst, s'.property, arms'.property]⟩, c)

def replaceAllBy (f : Nat → Term) {C : Type} [Subsingleton C] (visit : Visit f C) (first : Bool)
    (ts : List Term) (c : C) : Exactly (substAll f ts) × C :=
  match ts with
  | [] => (⟨[], rfl⟩, c)
  | whole@is:(t :: rest) =>
    let (u, c) := visit (first && rest.isEmpty) t (replaceBy f visit t) c
    let (us, c) := replaceAllBy f visit false rest c
    ifIdentical u.val t (fun _ => test _ _)
      (fun h => ifIdentical us.val rest (fun _ => testAll _ _)
        (fun h' => (⟨whole, by simp [substAll, ← u.property, ← us.property, h, h', is]⟩, c))
        fun _ => (⟨u.val :: us.val, by simp [substAll, u.property, us.property]⟩, c))
      fun _ => (⟨u.val :: us.val, by simp [substAll, u.property, us.property]⟩, c)

def replaceArmsBy (f : Nat → Term) {C : Type} [Subsingleton C] (visit : Visit f C)
    (arms : List (Arm Term)) (c : C) : Exactly (substArms f arms) × C :=
  match arms with
  | [] => (⟨[], rfl⟩, c)
  | ⟨k, n, t⟩ :: rest =>
    let (u, c) := visit false t (replaceBy f visit t) c
    let (us, c) := replaceArmsBy f visit rest c
    (⟨⟨k, n, u.val⟩ :: us.val, by simp [substArms, u.property, us.property]⟩, c)
end

def Visit.once (f : Nat → Term) : Visit f (Unit × Findings fun t => Exactly (t.subst f)) :=
  fun alone t down c =>
    if h : t.ground then (⟨t, (subst_of_ground f t h).symm⟩, c)
    else if alone || t.isLeaf then down c
    else Findings.visit t down c

/-- `subst`, for terms with shared subterms. -/
def replace (f : Nat → Term) (t : Term) : Term :=
  quickly t (fun _ => t.subst f) fun _ =>
    (Visit.once f true t (replaceBy f (.once f) t) ((), Squash.mk {})).1

@[simp] theorem replace_eq_subst (f : Nat → Term) (t : Term) : t.replace f = t.subst f := by
  simp [replace]

/-- `rename`: shifts every placeholder by `offset`. -/
def rename (offset : Nat) (t : Term) : Term :=
  if offset = 0 then t else t.replace fun i => .var (i + offset)

theorem rename_eq_subst (offset : Nat) (t : Term) :
    t.rename offset = t.subst fun i => .var (i + offset) := by
  by_cases h : offset = 0
  · simpa [rename, h] using (subst_var t).symm
  · simp [rename, h]

end Term

end Monotonicity
