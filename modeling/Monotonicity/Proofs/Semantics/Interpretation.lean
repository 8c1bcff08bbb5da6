import Mathlib.Logic.Function.Basic
import Monotonicity.Proofs.Relation.Core
import Monotonicity.Registry

/-!
# Interpretations

An interpretation has a carrier with application and lets every symbol stand for an element of it
and every ground term, taken as a relation, for a relation on it. `Orders` says that it respects the
reserved relations, the declared variances and the registered inclusions; `Models` adds equality and
the registered facts.

What a relation stands for can be read off its view: there is one lemma for each kind of view. They
are about a term under an assignment that makes it ground, since a goal may have been looked at
before its placeholders were filled.
-/

namespace Monotonicity

universe u

/-- What symbols, terms and relations stand for. -/
structure Interpretation where
  Carrier : Type u
  symbol : String → Carrier
  apply : Carrier → Carrier → Carrier
  /-- Placeholders and case analyses may stand for anything. -/
  other : Term → Carrier
  /-- The relation that a ground term stands for. -/
  relation : Term → Carrier → Carrier → Prop

/-- Every placeholder is replaced by a ground term. -/
def Grounding (θ : Nat → Term) : Prop := ∀ i, (θ i).ground = true

theorem Grounding.subst {θ : Nat → Term} (hθ : Grounding θ) (t : Term) :
    (t.subst θ).ground = true :=
  Term.ground_subst.2 fun i _ => hθ i

namespace Interpretation

variable {M : Interpretation.{u}} {r : Registry}

/-- Whatever the one relates, the other relates. -/
def Includes (M : Interpretation.{u}) (lesser greater : Term) : Prop :=
  ∀ x y, M.relation lesser x y → M.relation greater x y

theorem Includes.refl (rel : Term) : M.Includes rel rel := fun _ _ => id

theorem Includes.trans {a b c : Term} (h : M.Includes a b) (h' : M.Includes b c) :
    M.Includes a c :=
  fun x y hxy => h' x y (h x y hxy)

/-- Two arguments of a combinator are as the variance wants them. -/
def Varies (M : Interpretation.{u}) (a b : Term) : Variance → Prop
  | .covariant => M.Includes a b
  | .contravariant => M.Includes b a
  | .invariant => a = b

/-- The interpretation respects the reserved relations, the declared variances and the registered
inclusions. -/
structure Orders (M : Interpretation.{u}) (r : Registry) : Prop where
  top : ∀ x y, M.relation (.const Reserved.top) x y
  bottom : ∀ x y, ¬ M.relation (.const Reserved.bottom) x y
  arrow : ∀ dom cod : Term, dom.ground = true → cod.ground = true → ∀ f g,
    M.relation (.arrow dom cod) f g ↔
      ∀ x y, M.relation dom x y → M.relation cod (M.apply f x) (M.apply g y)
  flip : ∀ rel : Term, rel.ground = true → ∀ x y, M.relation rel.flip x y ↔ M.relation rel y x
  /-- A combinator goes along with its arguments as its variances say. -/
  variances : ∀ head variances, r.variances.get? head = some variances →
    ∀ xs ys : List Term, (∀ t ∈ xs, t.ground = true) → (∀ t ∈ ys, t.ground = true) →
      xs.length = ys.length → variances.length = xs.length →
      (∀ a b v, (a, b, v) ∈ xs.zip (ys.zip variances) → M.Varies a b v) →
      M.Includes (.app head xs) (.app head ys)
  /-- Every ground instance of a registered inclusion holds. -/
  inclusions : ∀ f ∈ r.inclusions, ∀ θ, Grounding θ →
    M.Includes (f.lesser.subst θ) (f.greater.subst θ)

/-! ## Converses -/

/-- A relation or, if the parity is odd, its converse. -/
def directed (M : Interpretation.{u}) (odd : Bool) (rel : Term) (x y : M.Carrier) : Prop :=
  if odd then M.relation rel y x else M.relation rel x y

section Converses

variable {t u core a b : Term} {odd odd' : Bool} {x y : M.Carrier} {θ : Nat → Term}

/-- Taking converses off changes nothing but the parity, in a class of relations whose converses
stand for the converse. -/
theorem directed_unflip {P : Term → Prop}
    (hflip : ∀ rel : Term, P rel.flip →
      P rel ∧ ∀ x y, M.relation rel.flip x y ↔ M.relation rel y x)
    (ht : P t) (h : t.unflip odd = (odd', core)) :
    M.directed odd t x y ↔ M.directed odd' core x y := by
  fun_induction Term.unflip odd t with
  | case1 odd rel ih =>
    obtain ⟨hrel, hconverse⟩ := hflip rel ht
    rw [← ih hrel h]
    cases odd with
    | true => exact hconverse y x
    | false => exact hconverse x y
  | case2 odd head rel hne =>
    cases h
    exact Iff.rfl
  | case3 odd t hne =>
    cases h
    exact Iff.rfl

namespace Orders

theorem directed_unflip (hM : M.Orders r) (ht : t.ground = true)
    (h : t.unflip odd = (odd', core)) : M.directed odd t x y ↔ M.directed odd' core x y := by
  refine Interpretation.directed_unflip (P := (·.ground = true)) (fun rel hrel => ?_) ht h
  have hground : rel.ground = true := Term.ground_app.1 hrel rel (by simp)
  exact ⟨hground, hM.flip rel hground⟩

/-- Relations that are the same up to converses relate the same. -/
theorem directed_congr (hM : M.Orders r) (ht : t.ground = true) (hu : u.ground = true)
    (h : t.unflip odd = u.unflip odd') : M.directed odd t x y ↔ M.directed odd' u x y :=
  (hM.directed_unflip ht rfl).trans (h ▸ hM.directed_unflip hu rfl).symm

/-! ## Views -/

/-- Relations that looked the same at some moment stand for the same, unless they are case
analyses. -/
theorem relation_congr {υ : Subst} (hM : M.Orders r) (hυ : υ.Acyclic) (hθ : υ.Solves θ)
    (ht : (t.subst θ).ground = true) (hseen : υ.view t ≠ .stuck) (h : υ.view t = υ.view u) :
    M.relation (t.subst θ) x y ↔ M.relation (u.subst θ) x y := by
  have hunflip := hθ.unflip_congr hυ h hseen
  have hdirected : M.directed false (t.subst θ) x y ↔ M.directed false (u.subst θ) x y :=
    hM.directed_congr ht (Term.ground_of_unflip_eq ht hunflip) hunflip
  exact hdirected

/-- A relation stands for what its view shows. -/
theorem relation_view (hM : M.Orders r) (ht : (t.subst θ).ground = true)
    (h : t.view.core? = some (odd, core)) :
    M.relation (t.subst θ) x y ↔ M.directed odd (core.subst θ) x y := by
  have hunflip := (Subst.solves_empty θ).unflip_of_view Subst.acyclic_empty h
  have hdirected : M.directed false (t.subst θ) x y ↔ M.directed odd (core.subst θ) x y :=
    hM.directed_congr ht (Term.ground_of_unflip_eq ht hunflip) hunflip
  exact hdirected

theorem relation_top (hM : M.Orders r) (ht : (t.subst θ).ground = true) (h : t.view = .top) :
    M.relation (t.subst θ) x y := by
  have hcore : t.view.core? = some (false, .const Reserved.top) := by rw [h]; rfl
  rw [hM.relation_view ht hcore]
  exact hM.top x y

theorem relation_bottom (hM : M.Orders r) (ht : (t.subst θ).ground = true)
    (h : t.view = .bottom) : ¬ M.relation (t.subst θ) x y := by
  have hcore : t.view.core? = some (false, .const Reserved.bottom) := by rw [h]; rfl
  rw [hM.relation_view ht hcore]
  exact hM.bottom x y

theorem relation_flip (hM : M.Orders r) (ht : (t.subst θ).ground = true) (h : t.view = .flip a) :
    M.relation (t.subst θ) x y ↔ M.relation (a.subst θ) y x := by
  have hcore : t.view.core? = some (true, a) := by rw [h]; rfl
  exact hM.relation_view ht hcore

theorem relation_arrow (hM : M.Orders r) (ht : (t.subst θ).ground = true)
    (h : t.view = .arrow a b) :
    M.relation (t.subst θ) x y ↔ ∀ u v, M.relation (a.subst θ) u v →
      M.relation (b.subst θ) (M.apply x u) (M.apply y v) := by
  have ha : (a.subst θ).ground = true := Term.ground_of_mem_parts ht (by simp [h, View.parts])
  have hb : (b.subst θ).ground = true := Term.ground_of_mem_parts ht (by simp [h, View.parts])
  have hcore : t.view.core? = some (false, .arrow a b) := by rw [h]; rfl
  rw [hM.relation_view ht hcore, ← hM.arrow _ _ ha hb]
  simp [directed, Term.arrow]

theorem relation_named (hM : M.Orders r) (ht : (t.subst θ).ground = true) {head : String}
    {args : List Term} (h : t.view = .named head args) :
    M.relation (t.subst θ) x y ↔ M.relation (.app head (args.map (·.subst θ))) x y := by
  have hcore : t.view.core? = some (false, .app head args) := by rw [h]; rfl
  rw [← Term.subst_app]
  exact hM.relation_view ht hcore

end Orders

end Converses

/-! ## Numbers -/

/-- Relations on numbers. A head other than a reserved one, `lt` and `le` narrows its first argument
down to different numbers. -/
def numberRelation : Term → Nat → Nat → Prop
  | .app head [], x, y =>
    if head = Reserved.top then True
    else if head = Reserved.bottom then False
    else if head = Reserved.equality then x = y
    else if head = "lt" then x < y
    else x ≤ y
  | .app head [a], x, y =>
    if head = Reserved.flip then numberRelation a y x else numberRelation a x y ∧ x ≠ y
  | .app head (a :: b :: rest), x, y =>
    if head = Reserved.arrow ∧ rest = [] then
      ∀ u v, numberRelation a u v → numberRelation b (x + u) (y + v)
    else numberRelation a x y ∧ x ≠ y
  | _, _, _ => False

/-- Numbers under addition, with the relations above. -/
def numbers : Interpretation where
  Carrier := Nat
  symbol _ := 0
  apply f x := f + x
  other _ := 0
  relation := numberRelation

/-- For numbers, only what is registered is in question. -/
theorem numbers_orders
    (hvariances : ∀ head variances, r.variances.get? head = some variances →
      ∀ xs ys : List Term, xs.length = ys.length → variances.length = xs.length →
        (∀ a b v, (a, b, v) ∈ xs.zip (ys.zip variances) → numbers.Varies a b v) →
        numbers.Includes (.app head xs) (.app head ys))
    (hinclusions : ∀ f ∈ r.inclusions, ∀ θ,
      numbers.Includes (f.lesser.subst θ) (f.greater.subst θ)) :
    numbers.Orders r where
  top x y := by simp [numbers, numberRelation]
  bottom x y := by simp [numbers, numberRelation, Reserved.top, Reserved.bottom]
  arrow dom cod _ _ f g := by simp [numbers, Term.arrow, numberRelation]
  flip rel _ x y := by simp [numbers, Term.flip, numberRelation]
  variances head variances hv xs ys _ _ hlen hlen' hargs :=
    hvariances head variances hv xs ys hlen hlen' hargs
  inclusions f hf θ _ := hinclusions f hf θ

end Interpretation

end Monotonicity
