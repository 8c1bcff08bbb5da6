import Monotonicity.Proofs.Term.Stable
import Monotonicity.Relation.Basic
import Monotonicity.Term.Symbols

/-!
# Terms built from certain heads

A term is built from heads with a property if it holds no case analysis and every head in it has the
property, which may speak of the number of arguments too. Replacing placeholders by such terms and
adding arguments to an application keep this up.

Two properties of heads are of use. A plain term has no dependent arrow, so that as a relation it is
made up of the simple combinators only. A term that is known at a number has no minted name with
this number or a later one: such names stay free for later mintings.
-/

namespace Monotonicity

namespace Term

variable {P Q : String → Nat → Prop} {t u : Term} {head : String} {args : List Term}

/-- The term holds no case analysis, and every head in it, with its number of arguments, has the
property. -/
inductive Built (P : String → Nat → Prop) : Term → Prop
  | var (i : Nat) : Built P (.var i)
  | app {head : String} {args : List Term} (hhead : P head args.length)
      (hargs : ∀ t ∈ args, Built P t) : Built P (.app head args)

@[simp] theorem built_var (i : Nat) : (Term.var i).Built P := .var i

@[simp] theorem built_app :
    (Term.app head args).Built P ↔ P head args.length ∧ ∀ t ∈ args, t.Built P := by
  constructor
  · intro h
    cases h with
    | app hhead hargs => exact ⟨hhead, hargs⟩
  · rintro ⟨hhead, hargs⟩
    exact .app hhead hargs

@[simp] theorem not_built_cases (s : Term) (arms : List (Arm Term)) :
    ¬ (Term.cases s arms).Built P := by
  rintro ⟨⟩

mutual
/-- Whether a term is built from certain heads can be found out. -/
def decidableBuilt (P : String → Nat → Prop) [∀ head n, Decidable (P head n)] :
    (t : Term) → Decidable (t.Built P)
  | .var i => isTrue (.var i)
  | .app _ args =>
    have := decidableBuiltAll P args
    decidable_of_iff _ built_app.symm
  | .cases s arms => isFalse (not_built_cases s arms)

/-- The same for a list of terms. -/
def decidableBuiltAll (P : String → Nat → Prop) [∀ head n, Decidable (P head n)] :
    (ts : List Term) → Decidable (∀ t ∈ ts, t.Built P)
  | [] => isTrue (by simp)
  | t :: ts =>
    have := decidableBuilt P t
    have := decidableBuiltAll P ts
    decidable_of_iff _ List.forall_mem_cons.symm
end

instance [∀ head n, Decidable (P head n)] : Decidable (t.Built P) := decidableBuilt P t

theorem Built.mono (h : t.Built P) (hPQ : ∀ head n, P head n → Q head n) : t.Built Q := by
  induction h with
  | var i => exact .var i
  | app hhead _ ih => exact .app (hPQ _ _ hhead) ih

/-- Replacing placeholders keeps a term built from certain heads if the terms put in are. -/
theorem built_subst {f : Nat → Term} :
    (t.subst f).Built P ↔ t.Built P ∧ ∀ i ∈ t.vars, (f i).Built P := by
  induction t using induction with
  | var i => simp
  | cases s arms => simp
  | app head args ih =>
    simp only [subst_app, built_app, List.length_map, List.forall_mem_map, mem_vars_app]
    constructor
    · rintro ⟨hhead, hargs⟩
      refine ⟨⟨hhead, fun t ht => ((ih t ht).1 (hargs t ht)).1⟩, ?_⟩
      rintro i ⟨t, ht, hi⟩
      exact ((ih t ht).1 (hargs t ht)).2 i hi
    · rintro ⟨⟨hhead, hargs⟩, hf⟩
      exact ⟨hhead, fun t ht => (ih t ht).2 ⟨hargs t ht, fun i hi => hf i ⟨t, ht, hi⟩⟩⟩

theorem stable_built : Stable (Built P) where
  args h := (built_app.1 h).2
  scrutinee h := (not_built_cases _ _ h).elim
  bodies h := (not_built_cases _ _ h).elim
  subst h hf := built_subst.2 ⟨h, hf⟩

theorem Built.rename (h : t.Built P) (offset : Nat) : (t.rename offset).Built P := by
  rw [rename_eq_subst]
  exact built_subst.2 ⟨h, fun i _ => .var _⟩

@[simp] theorem ground_app : (Term.app head args).ground = true ↔ ∀ t ∈ args, t.ground = true := by
  simp [ground]

/-- Whether a term becomes ground depends on what its placeholders are replaced by. -/
theorem ground_subst {f : Nat → Term} :
    (t.subst f).ground = true ↔ ∀ i ∈ t.vars, (f i).ground = true := by
  simp only [ground_iff, List.eq_nil_iff_forall_not_mem, mem_vars_subst]
  exact ⟨fun h i hi j hj => h j ⟨i, hi, hj⟩, fun h j ⟨i, hi, hj⟩ => h i hi j hj⟩

/-! ## Plain terms -/

/-- With so many arguments, the head does not make a dependent arrow. -/
def PlainHead (head : String) (n : Nat) : Prop := head = Reserved.dependent → n ≠ 2

instance (head : String) (n : Nat) : Decidable (PlainHead head n) :=
  inferInstanceAs (Decidable (_ → _))

/-- There is neither a case analysis nor a dependent arrow in the term. -/
def Plain (t : Term) : Prop := t.Built PlainHead

instance (t : Term) : Decidable t.Plain := inferInstanceAs (Decidable (t.Built PlainHead))

end Term

/-! ## Names -/

namespace Symbols

variable {hint hint' : String} {n m : Nat}

theorem isMarked_minting (hint : String) (n : Nat) : isMarked (minting hint n) = true := by
  simp [isMarked, minting, mark]

/-- The digits behind the last mark of a minted name. -/
theorem takeWhile_minting (hint : String) (n : Nat) :
    (minting hint n).toList.reverse.takeWhile (· ≠ mark) = (Nat.toDigits 10 n).reverse := by
  have hdigits : ∀ c ∈ (Nat.toDigits 10 n).reverse, (decide (c ≠ mark)) = true := by
    intro c hc
    have hdigit := Nat.isDigit_of_mem_toDigits (by decide) (by decide) (List.mem_reverse.1 hc)
    simp only [decide_eq_true_eq]
    rintro rfl
    exact absurd hdigit (by decide)
  have hname : (minting hint n).toList.reverse =
      (Nat.toDigits 10 n).reverse ++ mark :: hint.toList.reverse := by
    simp [minting, mark, Nat.toString_eq_repr, Nat.toList_repr]
  rw [hname, List.takeWhile_append_of_pos hdigits, List.takeWhile_cons_of_neg (by simp),
    List.append_nil]

/-- A name is minted with one number at most. -/
theorem number_unique (h : minting hint n = minting hint' m) : n = m := by
  have hdigits : (Nat.toDigits 10 n).reverse = (Nat.toDigits 10 m).reverse := by
    rw [← takeWhile_minting hint n, ← takeWhile_minting hint' m, h]
  -- reading the digits gives the number back
  have hread := congrArg (Nat.ofDigitChars 10 ·.reverse 0) hdigits
  simpa only [List.reverse_reverse, Nat.ofDigitChars_ten_toDigits] using hread

/-- Under no number from `n` on was the name minted. -/
def Known (n : Nat) (name : String) : Prop := ∀ hint m, name = minting hint m → m < n

theorem Known.of_le (h : Known n hint) (hm : n ≤ m) : Known m hint :=
  fun hint k hk => Nat.lt_of_lt_of_le (h hint k hk) hm

theorem known_of_unmarked (h : isMarked hint = false) : Known n hint := by
  rintro hint' m rfl
  rw [isMarked_minting] at h
  cases h

theorem known_minting (h : n < m) : Known m (minting hint n) :=
  fun _ _ hk => number_unique hk ▸ h

theorem Known.ne (h : Known n hint) (hm : n ≤ m) : hint ≠ minting hint' m :=
  fun heq => absurd (h hint' m heq) (by omega)

end Symbols

end Monotonicity
