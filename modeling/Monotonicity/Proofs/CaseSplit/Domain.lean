import Monotonicity.Proofs.CaseSplit.Names
import Monotonicity.Proofs.Relation.Core
import Monotonicity.Search.CaseSplit

/-!
# Domains with case analyses

A domain gives every term a meaning, built up from the meanings of its parts. A case analysis of a
constructor application stands for the body of the first arm of the constructor, applied to the
fields. Relations are terms, so they stand for elements too, and elements relate elements; the
converse and equality are respected.

What a relation is seen to be through bindings that hold in the domain is what it stands for there.
-/

namespace Monotonicity

universe u

/-- What symbols, placeholders, applications, case analyses and relations stand for. -/
structure Domain where
  Carrier : Type u
  symbol : String → Carrier
  placeholder : Nat → Carrier
  apply : Carrier → Carrier → Carrier
  /-- A case analysis, by its scrutinee and the constructor, the arity and the body of each arm. -/
  analyse : Carrier → List (String × Nat × Carrier) → Carrier
  /-- The first element, taken as a relation, relates the others. -/
  related : Carrier → Carrier → Carrier → Prop
  /-- The symbols that are constructors. -/
  IsConstructor : String → Prop
  /-- The first arm of the constructor is taken. -/
  analyse_constructor : ∀ {ctor : String} {fields : List Carrier}
    {arms : List (String × Nat × Carrier)} {body : Carrier}, IsConstructor ctor →
    arms.find? (·.1 = ctor) = some (ctor, fields.length, body) →
    analyse (fields.foldl apply (symbol ctor)) arms = fields.foldl apply body
  related_flip : ∀ r x y, related (apply (symbol Reserved.flip) r) x y ↔ related r y x
  related_equality : ∀ x y, related (symbol Reserved.equality) x y ↔ x = y

/-! ## Names older than a number -/

namespace Term

variable {n : Nat} {t : Term}

/-- No name in the term was minted under the number `n` or a later one. -/
def Older (n : Nat) (t : Term) : Prop := ∀ name ∈ t.symbols, Symbols.Known n name

theorem older_of_unmarked (h : ∀ name ∈ t.symbols, Symbols.isMarked name = false) : t.Older n :=
  fun name hname => Symbols.known_of_unmarked (h name hname)

theorem older_app {head : String} {args : List Term} :
    (Term.app head args).Older n ↔ Symbols.Known n head ∧ ∀ t ∈ args, t.Older n := by
  simp only [Older, symbols, symbolsAll_eq_flatMap, List.forall_mem_cons, List.mem_flatMap]
  constructor
  · rintro ⟨hhead, hargs⟩
    exact ⟨hhead, fun t ht name hname => hargs name ⟨t, ht, hname⟩⟩
  · rintro ⟨hhead, hargs⟩
    refine ⟨hhead, ?_⟩
    rintro name ⟨t, ht, hname⟩
    exact hargs t ht name hname

theorem stable_older : Stable (Older n) where
  args h := (older_app.1 h).2
  scrutinee h name hname := h name (by simp [symbols, hname])
  bodies h arm harm name hname := by
    refine h name ?_
    simp only [symbols, List.mem_append, mem_symbolsArms]
    exact .inr ⟨arm, harm, .inr hname⟩
  subst h hf name hname := by
    rcases mem_symbols_subst hname with hname | ⟨i, hi, hname⟩
    · exact h name hname
    · exact hf i hi name hname

end Term

namespace Domain

variable {D : Domain.{u}} {v v' : String → D.Carrier} {σ : Subst} {t u core : Term} {n m : Nat}
  {odd odd' : Bool} {x y : D.Carrier}

/-! ## Meanings -/

mutual
/-- What a term stands for if symbols stand for what `v` says. -/
def value (D : Domain.{u}) (v : String → D.Carrier) : Term → D.Carrier
  | .var i => D.placeholder i
  | .app head args => (D.valueAll v args).foldl D.apply (v head)
  | .cases s arms => D.analyse (D.value v s) (D.valueArms v arms)

/-- What terms stand for. -/
def valueAll (D : Domain.{u}) (v : String → D.Carrier) : List Term → List D.Carrier
  | [] => []
  | t :: ts => D.value v t :: D.valueAll v ts

/-- What arms stand for. -/
def valueArms (D : Domain.{u}) (v : String → D.Carrier) :
    List (Arm Term) → List (String × Nat × D.Carrier)
  | [] => []
  | ⟨c, n, t⟩ :: arms => (c, n, D.value v t) :: D.valueArms v arms
end

theorem valueAll_eq_map (ts : List Term) : D.valueAll v ts = ts.map (D.value v) := by
  induction ts with
  | nil => rfl
  | cons t ts ih => simp [valueAll, ih]

theorem valueArms_eq_map (arms : List (Arm Term)) :
    D.valueArms v arms = arms.map fun arm => (arm.ctor, arm.arity, D.value v arm.body) := by
  induction arms with
  | nil => rfl
  | cons arm arms ih => simp [valueArms, ih]

@[simp] theorem value_var (i : Nat) : D.value v (.var i) = D.placeholder i := by
  simp [value]

@[simp] theorem value_app (head : String) (args : List Term) :
    D.value v (.app head args) = (args.map (D.value v)).foldl D.apply (v head) := by
  simp [value, valueAll_eq_map]

@[simp] theorem value_cases (s : Term) (arms : List (Arm Term)) :
    D.value v (.cases s arms) = D.analyse (D.value v s) (D.valueArms v arms) := by
  simp [value]

/-- Only what the names in a term stand for matters. -/
theorem value_congr (h : ∀ name ∈ t.symbols, v name = v' name) : D.value v t = D.value v' t := by
  induction t using Term.induction with
  | var i => simp
  | app head args ih =>
    simp only [Term.symbols, Term.symbolsAll_eq_flatMap, List.forall_mem_cons,
      List.mem_flatMap] at h
    have hargs : args.map (D.value v) = args.map (D.value v') :=
      List.map_congr_left fun t ht => ih t ht fun name hname => h.2 name ⟨t, ht, hname⟩
    rw [value_app, value_app, h.1, hargs]
  | cases s arms ihs ih =>
    simp only [Term.symbols, List.mem_append, Term.mem_symbolsArms] at h
    have harms : D.valueArms v arms = D.valueArms v' arms := by
      rw [valueArms_eq_map, valueArms_eq_map]
      refine List.map_congr_left fun arm harm => ?_
      rw [ih arm harm fun name hname => h name (.inr ⟨arm, harm, .inr hname⟩)]
    rw [value_cases, value_cases, ihs fun name hname => h name (.inl hname), harms]

/-- Replacing placeholders by terms that stand for the same changes nothing. -/
theorem value_subst {f : Nat → Term} (h : ∀ i, D.value v (f i) = D.placeholder i) (t : Term) :
    D.value v (t.subst f) = D.value v t := by
  induction t using Term.induction with
  | var i => simp [h]
  | app head args ih =>
    have hargs : args.map (fun t => D.value v (t.subst f)) = args.map (D.value v) :=
      List.map_congr_left ih
    rw [Term.subst_app, value_app, value_app, List.map_map]
    exact congrArg _ hargs
  | cases s arms ihs ih =>
    rw [Term.subst_cases, value_cases, value_cases, ihs, valueArms_eq_map, valueArms_eq_map,
      List.map_map]
    refine congrArg _ (List.map_congr_left fun arm harm => ?_)
    simp [ih arm harm]

/-- The body of an arm applied to fields stands for what the body stands for, applied to what the
fields stand for. -/
theorem value_of_applyArm? {fields : List Term} (h : applyArm? t fields = some u) :
    D.value v u = (fields.map (D.value v)).foldl D.apply (D.value v t) := by
  unfold applyArm? at h
  split at h
  · next hfields =>
    cases h
    obtain rfl : fields = [] := by simpa using hfields
    rfl
  · cases t with
    | app head args =>
      simp only [Term.extend?, Option.some.injEq] at h
      rw [← h, value_app, value_app, List.map_append, List.foldl_append]
    | var i => simp [Term.extend?] at h
    | cases s arms => simp [Term.extend?] at h

/-- The first arm of the constructor is taken. -/
theorem analyse_of_armFor? {arms : List (Arm Term)} {arm : Arm Term} {ctor : String}
    {fields : List D.Carrier} (hctor : D.IsConstructor ctor) (harm : armFor? arms ctor = some arm)
    (harity : arm.arity = fields.length) :
    D.analyse (fields.foldl D.apply (D.symbol ctor)) (D.valueArms v arms) =
      fields.foldl D.apply (D.value v arm.body) := by
  have hname : arm.ctor = ctor := by simpa using List.find?_some harm
  refine D.analyse_constructor hctor ?_
  rw [valueArms_eq_map, List.find?_map]
  have hfind : arms.find? ((fun a => decide (a.1 = ctor)) ∘ fun arm : Arm Term =>
      (arm.ctor, arm.arity, D.value v arm.body)) = some arm := harm
  rw [hfind, Option.map_some, hname, harity]

/-! ## Bindings and views -/

/-- Every bound placeholder stands for what the term stands for that it is bound to. -/
def Respects (D : Domain.{u}) (σ : Subst) : Prop :=
  ∀ i t, σ.get? i = some t → D.placeholder i = D.value D.symbol t

theorem Respects.value_resolve (hσ : D.Respects σ) (t : Term) :
    D.value D.symbol (σ.resolve t) = D.value D.symbol t := by
  suffices h : ∀ rest t, D.value D.symbol (σ.resolveFor rest t) = D.value D.symbol t from h σ t
  intro rest
  induction rest with
  | empty => exact fun t => rfl
  | bind rest j u ih =>
    intro t
    rw [Subst.resolveFor, Term.replace_eq_subst]
    refine value_subst (fun i => ?_) t
    split
    · next w hw => rw [ih w, hσ i w hw]
    · exact value_var i

/-- The term, taken as a relation, or its converse if the parity is odd. -/
def directed (D : Domain.{u}) (odd : Bool) (t : Term) (x y : D.Carrier) : Prop :=
  if odd then D.related (D.value D.symbol t) y x else D.related (D.value D.symbol t) x y

theorem directed_flip (odd : Bool) (t : Term) (x y : D.Carrier) :
    D.directed odd t.flip x y ↔ D.directed (!odd) t x y := by
  have hflip := D.related_flip (D.value D.symbol t)
  cases odd with
  | true => exact hflip y x
  | false => exact hflip x y

theorem directed_unflip (h : t.unflip odd = (odd', core)) :
    D.directed odd t x y ↔ D.directed odd' core x y := by
  fun_induction Term.unflip odd t with
  | case1 odd rel ih => exact (directed_flip odd rel x y).trans (ih h)
  | case2 odd head rel hne =>
    cases h
    exact Iff.rfl
  | case3 odd t hne =>
    cases h
    exact Iff.rfl

/-- Taking converses off through bindings that hold changes nothing but the parity. -/
theorem Respects.directed_unflipFor (hσ : D.Respects σ) {rest : Subst}
    (h : σ.unflipFor rest odd t = (odd', core)) :
    D.directed odd t x y ↔ D.directed odd' core x y := by
  induction rest generalizing odd t with
  | empty => exact directed_unflip h
  | bind rest j u ih =>
    rw [Subst.unflipFor] at h
    split at h
    · next odd₁ i hunflip =>
      refine (directed_unflip hunflip).trans ?_
      split at h
      · next w hw =>
        rw [← ih h]
        simp only [directed, value_var, hσ i w hw]
      · cases h
        exact Iff.rfl
    · exact directed_unflip h

theorem directed_ofHead (h : (View.ofHead t).core? = some (odd, core)) :
    D.directed false t x y ↔ D.directed odd core x y := by
  by_cases ht : t.IsCore
  · cases ht.core?_ofHead h
    exact Iff.rfl
  · obtain ⟨rel, rfl⟩ : ∃ rel, t = .flip rel := by simpa [Term.IsCore] using ht
    obtain ⟨rfl, rfl⟩ : true = odd ∧ rel = core := by
      simpa [Term.flip, View.ofHead, View.core?] using h
    exact directed_flip false rel x y

/-- A relation stands for what is seen of it. -/
theorem Respects.related_view (hσ : D.Respects σ) (h : (σ.view t).core? = some (odd, core)) :
    D.related (D.value D.symbol t) x y ↔ D.directed odd core x y := by
  obtain ⟨parity, rest, hunflip⟩ : ∃ parity rest, σ.unflipFor σ false t = (parity, rest) :=
    ⟨_, _, rfl⟩
  have hrest : D.directed false t x y ↔ D.directed parity rest x y :=
    hσ.directed_unflipFor hunflip
  refine hrest.trans ?_
  rw [Subst.view, hunflip] at h
  cases parity with
  | true =>
    cases h
    exact Iff.rfl
  | false => exact directed_ofHead h

end Domain

/-! ## Terms as meanings -/

namespace Term

/-- A term with one more argument; what is no application stays as it is. -/
def applied (f x : Term) : Term := (f.extend? [x]).getD f

theorem foldl_applied (head : String) (args fields : List Term) :
    fields.foldl applied (.app head args) = .app head (args ++ fields) := by
  induction fields generalizing args with
  | nil => simp
  | cons x fields ih =>
    rw [List.foldl_cons, applied, extend?, Option.getD_some, ih, List.append_assoc]
    rfl

end Term

/-- Terms stand for themselves. Those in the set are related, `(r, x, y)` saying that `r` relates `x`
and `y`, and equal ones are equal. -/
def Domain.ofFacts (facts : Set (Term × Term × Term)) (placeholder : Nat → Term) : Domain where
  Carrier := Term
  symbol := Term.const
  placeholder := placeholder
  apply := Term.applied
  analyse
    | .app ctor fields, arms =>
      match arms.find? (·.1 = ctor) with
      | some (_, _, body) => fields.foldl Term.applied body
      | none => .app ctor fields
    | s, _ => s
  related r x y :=
    let (odd, core) := r.unflip false
    let (x, y) := if odd then (y, x) else (x, y)
    (core = .equality → x = y) ∧ (core ≠ .equality → (core, x, y) ∈ facts)
  IsConstructor _ := True
  analyse_constructor {ctor fields arms body} _ h := by
    rw [Term.const, Term.foldl_applied, List.nil_append]
    simp only [h]
  related_flip r x y := by
    have hflip : Term.applied (.const Reserved.flip) r = r.flip := rfl
    simp only [hflip, Term.unflip_flip, Term.unflip_not]
    cases (r.unflip false).1 <;> simp
  related_equality x y := by
    have hcore : (Term.const Reserved.equality).unflip false = (false, .equality) := rfl
    simp [hcore]

theorem Domain.related_ofFacts {facts : Set (Term × Term × Term)} {placeholder : Nat → Term}
    {r x y : Term} (hcore : r.unflip false = (false, r)) (hne : r ≠ .equality) :
    (Domain.ofFacts facts placeholder).related r x y ↔ (r, x, y) ∈ facts := by
  simp [ofFacts, hcore, hne]

end Monotonicity
