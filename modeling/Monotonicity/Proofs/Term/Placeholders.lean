import Mathlib.Data.List.Basic
import Monotonicity.Term.Replacement

/-!
# Placeholders of terms

Replacing placeholders in a term depends on the placeholders that occur in it only, and the
placeholders of the result are those of the terms put in.
-/

namespace Monotonicity

namespace Term

theorem varsAll_eq_flatMap (ts : List Term) : varsAll ts = ts.flatMap vars := by
  induction ts with
  | nil => rfl
  | cons t ts ih => simp [varsAll, ih]

theorem varsArms_eq_flatMap (arms : List (Arm Term)) :
    varsArms arms = arms.flatMap fun arm => arm.body.vars := by
  induction arms with
  | nil => rfl
  | cons arm arms ih => cases arm; simp [varsArms, ih]

theorem lt_boundAll_of_mem {i : Nat} {t : Term} {ts : List Term} (ht : t ∈ ts) (hi : i ∈ t.vars) :
    i < boundAll ts :=
  lt_boundAll ts (by rw [varsAll_eq_flatMap]; exact List.mem_flatMap.2 ⟨t, ht, hi⟩)

@[simp] theorem mem_vars_var {i j : Nat} : j ∈ (Term.var i).vars ↔ j = i := by simp [vars]

@[simp] theorem mem_vars_app {j : Nat} {head : String} {args : List Term} :
    j ∈ (Term.app head args).vars ↔ ∃ t ∈ args, j ∈ t.vars := by
  simp [vars, varsAll_eq_flatMap]

@[simp] theorem mem_vars_cases {j : Nat} {s : Term} {arms : List (Arm Term)} :
    j ∈ (Term.cases s arms).vars ↔ j ∈ s.vars ∨ ∃ arm ∈ arms, j ∈ arm.body.vars := by
  simp [vars, varsArms_eq_flatMap]

/-- Only the placeholders that occur matter. -/
theorem subst_congr {f g : Nat → Term} {t : Term} (h : ∀ i ∈ t.vars, f i = g i) :
    t.subst f = t.subst g := by
  induction t using induction with
  | var i => exact h i (by simp)
  | app head args ih =>
    have hargs : args.map (·.subst f) = args.map (·.subst g) :=
      List.map_congr_left fun t ht => ih t ht fun i hi => h i (by simpa using ⟨t, ht, hi⟩)
    simpa [subst, substAll_eq_map] using hargs
  | cases s arms ihs ih =>
    have hs : s.subst f = s.subst g := ihs fun i hi => h i (by simp [hi])
    have harms : (arms.map fun arm => { arm with body := arm.body.subst f }) =
        arms.map fun arm => { arm with body := arm.body.subst g } :=
      List.map_congr_left fun arm harm => by
        rw [ih arm harm fun i hi => h i (by simpa using .inr ⟨arm, harm, hi⟩)]
    simp [subst, substArms_eq_map, hs, harms]

@[simp] theorem subst_app (f : Nat → Term) (head : String) (args : List Term) :
    (Term.app head args).subst f = .app head (args.map (·.subst f)) := by
  rw [subst, substAll_eq_map]

@[simp] theorem subst_cases (f : Nat → Term) (s : Term) (arms : List (Arm Term)) :
    (Term.cases s arms).subst f =
      .cases (s.subst f) (arms.map fun arm => { arm with body := arm.body.subst f }) := by
  rw [subst, substArms_eq_map]

@[simp] theorem subst_var_eq (f : Nat → Term) (i : Nat) : (Term.var i).subst f = f i := rfl

/-- The placeholders of the result come from the terms put in. -/
theorem mem_vars_subst {f : Nat → Term} {t : Term} {j : Nat} :
    j ∈ (t.subst f).vars ↔ ∃ i ∈ t.vars, j ∈ (f i).vars := by
  induction t using induction with
  | var i => simp
  | app head args ih =>
    simp only [subst_app, mem_vars_app, List.mem_map, exists_exists_and_eq_and]
    constructor
    · rintro ⟨t, ht, hj⟩
      obtain ⟨i, hi, hij⟩ := (ih t ht).1 hj
      exact ⟨i, ⟨t, ht, hi⟩, hij⟩
    · rintro ⟨i, ⟨t, ht, hi⟩, hij⟩
      exact ⟨t, ht, (ih t ht).2 ⟨i, hi, hij⟩⟩
  | cases s arms ihs ih =>
    simp only [subst_cases, mem_vars_cases, List.mem_map, exists_exists_and_eq_and]
    constructor
    · rintro (hj | ⟨arm, harm, hj⟩)
      · obtain ⟨i, hi, hij⟩ := ihs.1 hj
        exact ⟨i, .inl hi, hij⟩
      · obtain ⟨i, hi, hij⟩ := (ih arm harm).1 hj
        exact ⟨i, .inr ⟨arm, harm, hi⟩, hij⟩
    · rintro ⟨i, hi | ⟨arm, harm, hi⟩, hij⟩
      · exact .inl (ihs.2 ⟨i, hi, hij⟩)
      · exact .inr ⟨arm, harm, (ih arm harm).2 ⟨i, hi, hij⟩⟩

/-- A term without placeholders is ground. -/
theorem ground_iff {t : Term} : t.ground = true ↔ t.vars = [] := by
  induction t using induction with
  | var i => simp [ground, vars]
  | app head args ih =>
    simp only [ground, vars, varsAll_eq_flatMap, List.all_eq_true, List.flatMap_eq_nil_iff]
    constructor
    · intro h t ht
      exact (ih t ht).1 (h ⟨t, ht⟩ (List.mem_attach ..))
    · rintro h ⟨t, ht⟩ -
      exact (ih t ht).2 (h t ht)
  | cases s arms ihs ih =>
    simp only [ground, vars, varsArms_eq_flatMap, Bool.and_eq_true, List.all_eq_true,
      List.append_eq_nil_iff, List.flatMap_eq_nil_iff, ihs]
    refine and_congr_right fun _ => ⟨fun h arm harm => ?_, ?_⟩
    · exact (ih arm harm).1 (h ⟨arm, harm⟩ (List.mem_attach ..))
    · rintro h ⟨arm, harm⟩ -
      exact (ih arm harm).2 (h arm harm)

/-- An application stays one, with its arguments' placeholders replaced. -/
theorem extend?_subst {f : Nat → Term} {t u : Term} {extra : List Term}
    (h : t.extend? extra = some u) :
    (t.subst f).extend? (extra.map (·.subst f)) = some (u.subst f) := by
  cases t with
  | var i => simp [extend?] at h
  | cases s arms => simp [extend?] at h
  | app head args =>
    simp only [extend?, Option.some.injEq] at h
    subst h
    simp [extend?]

/-! ## Names -/

theorem symbolsAll_eq_flatMap (ts : List Term) : symbolsAll ts = ts.flatMap symbols := by
  induction ts with
  | nil => rfl
  | cons t ts ih => simp [symbolsAll, ih]

theorem mem_symbolsArms {c : String} {arms : List (Arm Term)} :
    c ∈ symbolsArms arms ↔ ∃ arm ∈ arms, c = arm.ctor ∨ c ∈ arm.body.symbols := by
  induction arms with
  | nil => simp [symbolsArms]
  | cons arm arms ih => cases arm; simp [symbolsArms, ih, or_assoc]

/-- Replacing placeholders brings in no names but those of the terms put in. -/
theorem mem_symbols_subst {f : Nat → Term} {c : String} {t : Term}
    (h : c ∈ (t.subst f).symbols) : c ∈ t.symbols ∨ ∃ i ∈ t.vars, c ∈ (f i).symbols := by
  induction t using induction with
  | var i => exact .inr ⟨i, by simp, h⟩
  | app head args ih =>
    simp only [subst_app, symbols, symbolsAll_eq_flatMap, List.mem_cons, List.mem_flatMap,
      List.mem_map] at h ⊢
    rcases h with rfl | ⟨-, ⟨t, ht, rfl⟩, hc⟩
    · exact .inl (.inl rfl)
    · rcases ih t ht hc with hc | ⟨i, hi, hc⟩
      · exact .inl (.inr ⟨t, ht, hc⟩)
      · exact .inr ⟨i, mem_vars_app.2 ⟨t, ht, hi⟩, hc⟩
  | cases s arms ihs ih =>
    simp only [subst_cases, symbols, List.mem_append, mem_symbolsArms, List.mem_map] at h ⊢
    rcases h with hc | ⟨-, ⟨arm, harm, rfl⟩, rfl | hc⟩
    · rcases ihs hc with hc | ⟨i, hi, hc⟩
      · exact .inl (.inl hc)
      · exact .inr ⟨i, mem_vars_cases.2 (.inl hi), hc⟩
    · exact .inl (.inr ⟨arm, harm, .inl rfl⟩)
    · rcases ih arm harm hc with hc | ⟨i, hi, hc⟩
      · exact .inl (.inr ⟨arm, harm, .inr hc⟩)
      · exact .inr ⟨i, mem_vars_cases.2 (.inr ⟨arm, harm, hi⟩), hc⟩

/-- Replacing placeholders keeps the names. -/
theorem mem_symbols_subst_of_mem {f : Nat → Term} {c : String} {t : Term} (h : c ∈ t.symbols) :
    c ∈ (t.subst f).symbols := by
  induction t using induction with
  | var i => simp [symbols] at h
  | app head args ih =>
    simp only [subst_app, symbols, symbolsAll_eq_flatMap, List.mem_cons, List.mem_flatMap,
      List.mem_map] at h ⊢
    rcases h with rfl | ⟨t, ht, hc⟩
    · exact .inl rfl
    · exact .inr ⟨_, ⟨t, ht, rfl⟩, ih t ht hc⟩
  | cases s arms ihs ih =>
    simp only [subst_cases, symbols, List.mem_append, mem_symbolsArms, List.mem_map] at h ⊢
    rcases h with hc | ⟨arm, harm, rfl | hc⟩
    · exact .inl (ihs hc)
    · exact .inr ⟨_, ⟨arm, harm, rfl⟩, .inl rfl⟩
    · exact .inr ⟨_, ⟨arm, harm, rfl⟩, .inr (ih arm harm hc)⟩

/-! ## Children -/

/-- The terms right below the root. -/
def children : Term → List Term
  | .var _ => []
  | .app _ args => args
  | .cases s arms => s :: arms.map (·.body)

theorem body_mem_children {s : Term} {arms : List (Arm Term)} {arm : Arm Term} (h : arm ∈ arms) :
    arm.body ∈ (Term.cases s arms).children :=
  List.mem_cons_of_mem _ (List.mem_map_of_mem h)

theorem sizeOf_lt_of_mem_children {t u : Term} (h : u ∈ t.children) : sizeOf u < sizeOf t := by
  cases t with
  | var i => simp [children] at h
  | app head args =>
    have hlt := List.sizeOf_lt_of_mem (show u ∈ args from h)
    simp only [app.sizeOf_spec]
    omega
  | cases s arms =>
    simp only [children, List.mem_cons, List.mem_map] at h
    rcases h with rfl | ⟨arm, harm, rfl⟩
    · simp only [cases.sizeOf_spec]
      omega
    · have hlt := List.sizeOf_lt_of_mem harm
      have hbody : sizeOf arm.body < sizeOf arm := by
        cases arm
        simp only [Arm.mk.sizeOf_spec]
        omega
      simp only [cases.sizeOf_spec]
      omega

theorem children_subst {t : Term} {f : Nat → Term} (ht : ∀ i, t ≠ .var i) :
    (t.subst f).children = t.children.map (·.subst f) := by
  cases t with
  | var i => exact (ht i rfl).elim
  | app head args => simp [children]
  | cases s arms => simp [children, Function.comp_def]

theorem mem_vars_iff_children {t : Term} {i : Nat} (ht : ∀ i, t ≠ .var i) :
    i ∈ t.vars ↔ ∃ u ∈ t.children, i ∈ u.vars := by
  cases t with
  | var i => exact (ht i rfl).elim
  | app head args => simp [children]
  | cases s arms => simp [children]

/-- What passes from the terms right below the root to the term holds of all terms. -/
theorem children_induction {P : Term → Prop} (h : ∀ t, (∀ u ∈ t.children, P u) → P t) (t : Term) :
    P t := by
  induction t using induction with
  | var i => exact h _ (by simp [children])
  | app head args ih => exact h _ ih
  | cases s arms ihs ih =>
    refine h _ fun u hu => ?_
    simp only [children, List.mem_cons, List.mem_map] at hu
    rcases hu with rfl | ⟨arm, harm, rfl⟩
    · exact ihs
    · exact ih arm harm

end Term

end Monotonicity
