import Mathlib.Logic.Function.Basic
import Monotonicity.Proofs.Relation.Converse
import Monotonicity.Search.CaseSplit
import Monotonicity.Search.Candidate

/-!
# Other names

A renaming shifts all placeholders by one number and gives other names to symbols. It acts on terms
and on all that is made of terms. The action commutes with everything that is done with terms: with
replacing placeholders, with extending and taking apart applications, with looking at a relation.
Where names are compared, it has to be proper: different names stay different, and reserved ones
keep their meaning.
-/

namespace Monotonicity

/-- A shift for placeholders, and other names for symbols. -/
structure Renaming where
  shift : Nat := 0
  name : String → String := id

/-- Different names stay different, and reserved names stay the same. -/
structure Renaming.Proper (r : Renaming) : Prop where
  injective : Function.Injective r.name
  reserved : ∀ head ∈ Reserved.all, r.name head = head

theorem Renaming.Proper.eq_reserved {r : Renaming} (hr : r.Proper) {head reserved : String}
    (h : reserved ∈ Reserved.all) : r.name head = reserved ↔ head = reserved := by
  constructor
  · intro heq
    exact hr.injective (heq.trans (hr.reserved _ h).symm)
  · rintro rfl
    exact hr.reserved _ h

/-! ## Terms -/

namespace Term

mutual
/-- The term with other names. -/
def renamed (r : Renaming) : Term → Term
  | .var i => .var (i + r.shift)
  | .app head args => .app (r.name head) (renamedAll r args)
  | .cases s arms => .cases (s.renamed r) (renamedArms r arms)

/-- The same for a list of terms. -/
def renamedAll (r : Renaming) : List Term → List Term
  | [] => []
  | t :: ts => t.renamed r :: renamedAll r ts

/-- The same for arms, with their constructors. -/
def renamedArms (r : Renaming) : List (Arm Term) → List (Arm Term)
  | [] => []
  | ⟨c, n, t⟩ :: arms => ⟨r.name c, n, t.renamed r⟩ :: renamedArms r arms
end

end Term

instance : SMul Renaming Term := ⟨Term.renamed⟩

instance : SMul Renaming (Arm Term) := ⟨fun r arm => ⟨r.name arm.ctor, arm.arity, r • arm.body⟩⟩

variable {r : Renaming}

@[simp] theorem ctor_smul (arm : Arm Term) : (r • arm).ctor = r.name arm.ctor := rfl

@[simp] theorem arity_smul (arm : Arm Term) : (r • arm).arity = arm.arity := rfl

@[simp] theorem body_smul (arm : Arm Term) : (r • arm).body = r • arm.body := rfl

namespace Term

theorem renamedAll_eq_map (ts : List Term) : renamedAll r ts = ts.map (r • ·) := by
  induction ts with
  | nil => rfl
  | cons t ts ih => rw [renamedAll, ih]; rfl

theorem renamedArms_eq_map (arms : List (Arm Term)) : renamedArms r arms = arms.map (r • ·) := by
  induction arms with
  | nil => rfl
  | cons arm arms ih => rw [renamedArms, ih]; rfl

@[simp] theorem smul_var (i : Nat) : r • Term.var i = .var (i + r.shift) := rfl

@[simp] theorem smul_app (head : String) (args : List Term) :
    r • Term.app head args = .app (r.name head) (args.map (r • ·)) := by
  rw [← renamedAll_eq_map]
  rfl

@[simp] theorem smul_cases (s : Term) (arms : List (Arm Term)) :
    r • Term.cases s arms = .cases (r • s) (arms.map (r • ·)) := by
  rw [← renamedArms_eq_map]
  rfl

/-- Placeholders are replaced before or after the names change. -/
theorem smul_subst {f f' : Nat → Term} {t : Term}
    (h : ∀ i ∈ t.vars, f' (i + r.shift) = r • f i) : (r • t).subst f' = r • t.subst f := by
  induction t using induction with
  | var i => exact h i (by simp)
  | app head args ih =>
    simp only [smul_app, subst_app, List.map_map, app.injEq, true_and]
    exact List.map_congr_left fun t ht => ih t ht fun i hi => h i (mem_vars_app.2 ⟨t, ht, hi⟩)
  | cases s arms ihs ih =>
    simp only [smul_cases, subst_cases, List.map_map, cases.injEq]
    refine ⟨ihs fun i hi => h i (mem_vars_cases.2 (.inl hi)), List.map_congr_left fun arm harm => ?_⟩
    have hbody := ih arm harm fun i hi => h i (mem_vars_cases.2 (.inr ⟨arm, harm, hi⟩))
    simp only [Function.comp_apply, body_smul, hbody]
    rfl

theorem vars_smul (t : Term) : (r • t).vars = t.vars.map (· + r.shift) := by
  induction t using induction with
  | var i => rfl
  | app head args ih =>
    simp only [smul_app, vars, varsAll_eq_flatMap, List.flatMap_map, List.map_flatMap]
    exact List.flatMap_congr ih
  | cases s arms ihs ih =>
    simp only [smul_cases, vars, varsArms_eq_flatMap, List.flatMap_map, List.map_flatMap,
      List.map_append, ihs, body_smul]
    exact congrArg _ (List.flatMap_congr ih)

theorem any_smul (p : Nat → Bool) (t : Term) :
    (r • t).any p = t.any fun i => p (i + r.shift) := by
  rw [any_eq_any_vars, any_eq_any_vars, vars_smul, List.any_map]
  rfl

mutual
/-- The bound is shifted, unless there is no placeholder. -/
theorem bound_smul : (t : Term) → (r • t).bound = if t.bound = 0 then 0 else t.bound + r.shift
  | .var i => by
    simp [bound]
    omega
  | .app head args => by
    rw [smul_app, bound, bound, boundAll_smul args]
  | .cases s arms => by
    rw [smul_cases, bound, bound, bound_smul s, boundArms_smul arms]
    grind

theorem boundAll_smul : (ts : List Term) →
    boundAll (ts.map (r • ·)) = if boundAll ts = 0 then 0 else boundAll ts + r.shift
  | [] => rfl
  | t :: ts => by
    rw [List.map_cons, boundAll, boundAll, bound_smul t, boundAll_smul ts]
    grind

theorem boundArms_smul : (arms : List (Arm Term)) →
    boundArms (arms.map (r • ·)) = if boundArms arms = 0 then 0 else boundArms arms + r.shift
  | [] => rfl
  | ⟨c, n, t⟩ :: arms => by
    change max (r • t).bound (boundArms (arms.map (r • ·))) = _
    rw [boundArms, bound_smul t, boundArms_smul arms]
    grind
end

/-- Two lists that a function takes to the same are the same if it tells their members apart. -/
private theorem eq_of_map_eq {α β : Type} {f : α → β} {xs ys : List α}
    (h : ∀ x ∈ xs, ∀ y, f x = f y → x = y) (heq : xs.map f = ys.map f) : xs = ys := by
  induction xs generalizing ys with
  | nil => simpa using heq.symm
  | cons x xs ih =>
    cases ys with
    | nil => simp at heq
    | cons y ys =>
      simp only [List.map_cons, List.cons.injEq] at heq
      rw [List.forall_mem_cons] at h
      rw [h.1 y heq.1, ih h.2 heq.2]

/-- A proper renaming tells terms apart. -/
theorem smul_inj (hr : r.Proper) {t u : Term} : r • t = r • u ↔ t = u := by
  constructor
  · intro h
    induction t using induction generalizing u with
    | var i => cases u <;> simp_all
    | app head args ih =>
      cases u with
      | app head' args' =>
        simp only [smul_app, app.injEq] at h ⊢
        exact ⟨hr.injective h.1, eq_of_map_eq (fun t ht u => ih t ht) h.2⟩
      | _ => simp at h
    | cases s arms ihs ih =>
      cases u with
      | cases s' arms' =>
        simp only [smul_cases, cases.injEq] at h ⊢
        refine ⟨ihs h.1, eq_of_map_eq (fun arm harm arm' heq => ?_) h.2⟩
        have hctor := hr.injective (congrArg Arm.ctor heq)
        have harity := congrArg Arm.arity heq
        have hbody := ih arm harm (congrArg Arm.body heq)
        cases arm
        cases arm'
        simp_all
      | _ => simp at h
  · rintro rfl
    rfl

/-! ### Parts -/

@[simp] theorem extend?_smul (t : Term) (extra : List Term) :
    (r • t).extend? (extra.map (r • ·)) = (t.extend? extra).map (r • ·) := by
  cases t <;> simp [extend?]

@[simp] theorem asVar?_smul (t : Term) : (r • t).asVar? = t.asVar?.map (· + r.shift) := by
  cases t <;> simp [asVar?]

@[simp] theorem isSome_asCases?_smul (t : Term) : (r • t).asCases?.isSome = t.asCases?.isSome := by
  cases t <;> simp [asCases?]

/-! ### Terms that keep their names -/

/-- The renaming leaves the names in the term alone. -/
def KeepsNames (r : Renaming) (t : Term) : Prop := ∀ c ∈ t.symbols, r.name c = c

theorem smul_of_keepsNames {t : Term} (h : t.KeepsNames r) :
    r • t = t.subst fun i => .var (i + r.shift) := by
  induction t using induction with
  | var i => rfl
  | app head args ih =>
    simp only [KeepsNames, symbols, symbolsAll_eq_flatMap, List.forall_mem_cons,
      List.mem_flatMap, forall_exists_index, and_imp] at h
    simp only [smul_app, subst_app, app.injEq]
    exact ⟨h.1, List.map_congr_left fun t ht => ih t ht fun c hc => h.2 c t ht hc⟩
  | cases s arms ihs ih =>
    simp only [KeepsNames, symbols, List.mem_append, mem_symbolsArms] at h
    simp only [smul_cases, subst_cases, cases.injEq]
    refine ⟨ihs fun c hc => h c (.inl hc), List.map_congr_left fun arm harm => ?_⟩
    have hctor : r.name arm.ctor = arm.ctor := h _ (.inr ⟨arm, harm, .inl rfl⟩)
    have hbody := ih arm harm fun c hc => h c (.inr ⟨arm, harm, .inr hc⟩)
    change Arm.mk (r.name arm.ctor) arm.arity (r • arm.body) = _
    rw [hctor, hbody]

/-- A use of a registered term is renamed by shifting it further. -/
theorem rename_smul {t : Term} (h : t.KeepsNames r) (offset : Nat) :
    r • t.rename offset = t.rename (offset + r.shift) := by
  have hkeeps : (t.rename offset).KeepsNames r := by
    intro c hc
    rw [rename_eq_subst] at hc
    rcases mem_symbols_subst hc with hc | ⟨i, -, hc⟩
    · exact h c hc
    · simp [symbols] at hc
  rw [smul_of_keepsNames hkeeps, rename_eq_subst, rename_eq_subst, subst_subst]
  simp [Nat.add_assoc]

/-- A term is left alone if its names are, and no placeholder in it is shifted. -/
theorem smul_eq_self {t : Term} (h : t.KeepsNames r) (hvars : r.shift = 0 ∨ t.vars = []) :
    r • t = t := by
  rw [smul_of_keepsNames h]
  rcases hvars with hshift | hground
  · simp [hshift, subst_var]
  · exact subst_of_ground _ t (ground_iff.2 hground)

end Term

/-! ## Arms -/

@[simp] theorem applyArm?_smul (body : Term) (fields : List Term) :
    applyArm? (r • body) (fields.map (r • ·)) = (applyArm? body fields).map (r • ·) := by
  unfold applyArm?
  split <;> simp_all

@[simp] theorem armFor?_smul (hr : r.Proper) (arms : List (Arm Term)) (c : String) :
    armFor? (arms.map (r • ·)) (r.name c) = (armFor? arms c).map (r • ·) := by
  simp only [armFor?, List.find?_map]
  congr 2
  funext arm
  simp [hr.injective.eq_iff]

end Monotonicity
