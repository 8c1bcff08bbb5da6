/-!
# Terms

A term is a placeholder, a head symbol applied to arguments, or a case analysis. Applications are
curried: `h a b` is one node whose spine can be extended by further arguments or cut back to a
shorter one. Arms of a case analysis hold a body that expects the constructor's fields as further
arguments.

Relations are terms too, so a placeholder may stand for either.

`Term.induction` is induction over terms with a hypothesis for every child; `subst_var` and
`subst_subst` are the laws of replacing placeholders.
-/

namespace Monotonicity

/-- `MatchArm`: one arm `ctor x₁ … xₙ => body x₁ … xₙ` of a case analysis, `n` being the arity. -/
structure Arm (τ : Type) where
  ctor : String
  arity : Nat
  body : τ
deriving DecidableEq, Repr

/-- First-order terms with placeholders and case analyses. Every node keeps two things about its
term, so that it need not be gone through for them. -/
inductive Term where
  | var (index : Nat)
  /-- A head symbol with its arguments; without arguments it is a constant. -/
  | app (head : String) (args : List Term)
  | cases (scrutinee : Term) (arms : List (Arm Term))
with
  /-- A number that equal terms share. -/
  @[computed_field] hash : Term → UInt64
    | .var i => mixHash 7 (Hashable.hash i)
    | .app head args =>
      args.attach.foldl (fun h ⟨t, _⟩ => mixHash h t.hash) (Hashable.hash head)
    | .cases s arms =>
      arms.attach.foldl
        (fun h ⟨⟨c, n, t⟩, mem⟩ =>
          have : sizeOf t < sizeOf arms := by
            have := List.sizeOf_lt_of_mem mem
            simp only [Arm.mk.sizeOf_spec] at this
            omega
          mixHash (mixHash h (mixHash (Hashable.hash c) (Hashable.hash n))) t.hash)
        s.hash
  @[computed_field] ground : Term → Bool
    | .var _ => false
    | .app _ args => args.attach.all fun ⟨t, _⟩ => t.ground
    | .cases s arms =>
      s.ground && arms.attach.all fun ⟨⟨_, _, t⟩, mem⟩ =>
        have : sizeOf t < sizeOf arms := by
          have := List.sizeOf_lt_of_mem mem
          simp only [Arm.mk.sizeOf_spec] at this
          omega
        t.ground
deriving Repr, Inhabited

/-- Placeholder indices are numbers of 32 bits: they are below this bound. -/
def indexBound : Nat := 4294967296

namespace Term

/-! ## Induction -/

mutual
theorem induction {P : Term → Prop} (var : ∀ i, P (.var i))
    (app : ∀ head args, (∀ t ∈ args, P t) → P (.app head args))
    (cases : ∀ s arms, P s → (∀ arm ∈ arms, P arm.body) → P (.cases s arms)) : (t : Term) → P t
  | .var i => var i
  | .app head args => app head args (inductionAll var app cases args)
  | .cases s arms =>
    cases s arms (induction var app cases s) (inductionArms var app cases arms)

theorem inductionAll {P : Term → Prop} (var : ∀ i, P (.var i))
    (app : ∀ head args, (∀ t ∈ args, P t) → P (.app head args))
    (cases : ∀ s arms, P s → (∀ arm ∈ arms, P arm.body) → P (.cases s arms)) :
    (ts : List Term) → ∀ t ∈ ts, P t
  | [] => by simp
  | t :: ts => by
    have hd := induction var app cases t
    have tl := inductionAll var app cases ts
    simpa using ⟨hd, tl⟩

theorem inductionArms {P : Term → Prop} (var : ∀ i, P (.var i))
    (app : ∀ head args, (∀ t ∈ args, P t) → P (.app head args))
    (cases : ∀ s arms, P s → (∀ arm ∈ arms, P arm.body) → P (.cases s arms)) :
    (arms : List (Arm Term)) → ∀ arm ∈ arms, P arm.body
  | [] => by simp
  | ⟨_, _, t⟩ :: arms => by
    have hd := induction var app cases t
    have tl := inductionArms var app cases arms
    simpa using ⟨hd, tl⟩
end

/-! ## Shapes -/

/-- `app0`: a constant. -/
abbrev const (name : String) : Term := .app name []

/-- `is_app`, with `is_var` and `is_match` below: the parts of a term of one kind. -/
def asApp? : Term → Option (String × List Term)
  | .app head args => some (head, args)
  | _ => none

def asVar? : Term → Option Nat
  | .var index => some index
  | _ => none

def asCases? : Term → Option (Term × List (Arm Term))
  | .cases scrutinee arms => some (scrutinee, arms)
  | _ => none

def isLeaf : Term → Bool
  | .var _ => true
  | .app _ args => args.isEmpty
  | .cases _ _ => false

/-- `apply`: extends the spine of an application; nothing else can be applied. -/
def extend? : Term → List Term → Option Term
  | .app head args, extra => some (.app head (args ++ extra))
  | _, _ => none

/-- `prefix`: the first `len` arguments of an application, if it has that many. -/
def take? : Term → Nat → Option Term
  | .app head args, len => if len ≤ args.length then some (.app head (args.take len)) else none
  | _, _ => none

/-- Applies `step` to a term `count` times. -/
def iterate (step : Term → Term) : Nat → Term → Term
  | 0, t => t
  | n + 1, t => iterate step n (step t)

/-! ## Placeholders -/

mutual
/-- Replaces every placeholder. -/
def subst (f : Nat → Term) : Term → Term
  | .var i => f i
  | .app head args => .app head (substAll f args)
  | .cases s arms => .cases (s.subst f) (substArms f arms)

def substAll (f : Nat → Term) : List Term → List Term
  | [] => []
  | t :: ts => t.subst f :: substAll f ts

def substArms (f : Nat → Term) : List (Arm Term) → List (Arm Term)
  | [] => []
  | ⟨c, n, t⟩ :: arms => ⟨c, n, t.subst f⟩ :: substArms f arms
end

theorem substAll_eq_map (f : Nat → Term) (ts : List Term) : substAll f ts = ts.map (·.subst f) := by
  induction ts with
  | nil => rfl
  | cons t ts ih => simp [substAll, ih]

theorem substArms_eq_map (f : Nat → Term) (arms : List (Arm Term)) :
    substArms f arms = arms.map fun arm => { arm with body := arm.body.subst f } := by
  induction arms with
  | nil => rfl
  | cons arm arms ih => cases arm; simp [substArms, ih]

theorem subst_var (t : Term) : t.subst .var = t := by
  induction t using induction with
  | var i => rfl
  | app head args ih =>
    have h : args.map (·.subst .var) = args.map id := List.map_congr_left ih
    simpa [subst, substAll_eq_map] using h
  | cases s arms ihs ih =>
    have h : (arms.map fun arm => { arm with body := arm.body.subst .var }) = arms.map id :=
      List.map_congr_left fun arm harm => by simp [ih arm harm]
    simpa [subst, substArms_eq_map, ihs] using h

theorem subst_subst (f g : Nat → Term) (t : Term) :
    (t.subst f).subst g = t.subst fun i => (f i).subst g := by
  induction t using induction with
  | var i => rfl
  | app head args ih =>
    simpa [subst, substAll_eq_map] using ih
  | cases s arms ihs ih =>
    simpa [subst, substArms_eq_map, ihs] using ih

theorem subst_of_ground (f : Nat → Term) (t : Term) (h : t.ground = true) : t.subst f = t := by
  induction t using induction with
  | var i => simp [ground] at h
  | app head args ih =>
    simp only [ground, List.all_eq_true] at h
    have : args.map (·.subst f) = args.map id :=
      List.map_congr_left fun t ht => ih t ht (h ⟨t, ht⟩ (List.mem_attach ..))
    simpa [subst, substAll_eq_map] using this
  | cases s arms ihs ih =>
    simp only [ground, Bool.and_eq_true, List.all_eq_true] at h
    have : (arms.map fun arm => { arm with body := arm.body.subst f }) = arms.map id :=
      List.map_congr_left fun arm harm => by
        simp [ih arm harm (h.2 ⟨arm, harm⟩ (List.mem_attach ..))]
    simpa [subst, substArms_eq_map, ihs h.1] using this

mutual
/-- The placeholders of a term, from left to right, with repetitions. -/
def vars : Term → List Nat
  | .var i => [i]
  | .app _ args => varsAll args
  | .cases s arms => s.vars ++ varsArms arms

def varsAll : List Term → List Nat
  | [] => []
  | t :: ts => t.vars ++ varsAll ts

def varsArms : List (Arm Term) → List Nat
  | [] => []
  | ⟨_, _, t⟩ :: arms => t.vars ++ varsArms arms
end

mutual
/-- Whether `p` holds of some placeholder, which is looked for from right to left. -/
def any (p : Nat → Bool) : Term → Bool
  | .var i => p i
  | .app _ args => anyAll p args
  | .cases s arms => anyArms p arms || s.any p

def anyAll (p : Nat → Bool) : List Term → Bool
  | [] => false
  | t :: ts => anyAll p ts || t.any p

def anyArms (p : Nat → Bool) : List (Arm Term) → Bool
  | [] => false
  | ⟨_, _, t⟩ :: arms => anyArms p arms || t.any p
end

mutual
/-- The least number above every placeholder index. -/
def bound : Term → Nat
  | .var i => i + 1
  | .app _ args => boundAll args
  | .cases s arms => max s.bound (boundArms arms)

def boundAll : List Term → Nat
  | [] => 0
  | t :: ts => max t.bound (boundAll ts)

def boundArms : List (Arm Term) → Nat
  | [] => 0
  | ⟨_, _, t⟩ :: arms => max t.bound (boundArms arms)
end

mutual
theorem any_eq_any_vars (p : Nat → Bool) : (t : Term) → t.any p = t.vars.any p
  | .var i => by simp [any, vars]
  | .app _ args => by simp [any, vars, anyAll_eq_any_varsAll p args]
  | .cases s arms => by
    simp [any, vars, any_eq_any_vars p s, anyArms_eq_any_varsArms p arms, Bool.or_comm]

theorem anyAll_eq_any_varsAll (p : Nat → Bool) : (ts : List Term) → anyAll p ts = (varsAll ts).any p
  | [] => rfl
  | t :: ts => by
    simp [anyAll, varsAll, any_eq_any_vars p t, anyAll_eq_any_varsAll p ts, Bool.or_comm]

theorem anyArms_eq_any_varsArms (p : Nat → Bool) :
    (arms : List (Arm Term)) → anyArms p arms = (varsArms arms).any p
  | [] => rfl
  | ⟨_, _, t⟩ :: arms => by
    simp [anyArms, varsArms, any_eq_any_vars p t, anyArms_eq_any_varsArms p arms, Bool.or_comm]
end

mutual
theorem lt_bound {i : Nat} : (t : Term) → i ∈ t.vars → i < t.bound
  | .var j, h => by simp_all [vars, bound]
  | .app _ args, h => lt_boundAll args h
  | .cases s arms, h => by
    rcases List.mem_append.1 h with h | h
    · exact Nat.lt_of_lt_of_le (lt_bound s h) (Nat.le_max_left ..)
    · exact Nat.lt_of_lt_of_le (lt_boundArms arms h) (Nat.le_max_right ..)

theorem lt_boundAll {i : Nat} : (ts : List Term) → i ∈ varsAll ts → i < boundAll ts
  | t :: ts, h => by
    rcases List.mem_append.1 h with h | h
    · exact Nat.lt_of_lt_of_le (lt_bound t h) (Nat.le_max_left ..)
    · exact Nat.lt_of_lt_of_le (lt_boundAll ts h) (Nat.le_max_right ..)

theorem lt_boundArms {i : Nat} : (arms : List (Arm Term)) → i ∈ varsArms arms → i < boundArms arms
  | ⟨_, _, t⟩ :: arms, h => by
    rcases List.mem_append.1 h with h | h
    · exact Nat.lt_of_lt_of_le (lt_bound t h) (Nat.le_max_left ..)
    · exact Nat.lt_of_lt_of_le (lt_boundArms arms h) (Nat.le_max_right ..)
end

/-- `max_var` of several terms: the largest placeholder index, if there is a placeholder. -/
def maxVarAll? (ts : List Term) : Option Nat :=
  match boundAll ts with
  | 0 => none
  | n + 1 => some n

def maxVar? (t : Term) : Option Nat := maxVarAll? [t]

/-! ## Symbols -/

mutual
/-- Every head and constructor name of a term. -/
def symbols : Term → List String
  | .var _ => []
  | .app head args => head :: symbolsAll args
  | .cases s arms => s.symbols ++ symbolsArms arms

def symbolsAll : List Term → List String
  | [] => []
  | t :: ts => t.symbols ++ symbolsAll ts

def symbolsArms : List (Arm Term) → List String
  | [] => []
  | ⟨c, _, t⟩ :: arms => c :: (t.symbols ++ symbolsArms arms)
end

/-! ## Text -/

mutual
/-- `format_term`: writes a term as an s-expression behind `out`; placeholder `n` is written `?n`.
-/
def write (out : String) : Term → String
  | .var i => out ++ "?" ++ toString i
  | .app head [] => out ++ head
  | .app head (arg :: args) => writeAll (out ++ "(" ++ head) (arg :: args) ++ ")"
  | .cases s arms => writeArms (s.write (out ++ "(match ")) arms ++ ")"

def writeAll (out : String) : List Term → String
  | [] => out
  | t :: ts => writeAll (t.write (out ++ " ")) ts

def writeArms (out : String) : List (Arm Term) → String
  | [] => out
  | ⟨c, n, t⟩ :: arms =>
    writeArms (t.write (out ++ " [" ++ c ++ "/" ++ toString n ++ " => ") ++ "]") arms
end

def text (t : Term) : String := t.write ""

end Term

end Monotonicity
