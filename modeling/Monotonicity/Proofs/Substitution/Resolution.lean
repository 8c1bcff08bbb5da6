import Mathlib.Algebra.BigOperators.Group.List.Basic
import Mathlib.Algebra.Order.Ring.Nat
import Monotonicity.Goal.Obligation
import Monotonicity.Proofs.Relation.View

/-!
# Resolving as repeated replacement

To resolve a term is to replace its bound placeholders, one at a time and in any order, until none
is left. `Replaces` is one such replacement. Under acyclic bindings no sequence of replacements goes
on forever (`Acyclic.wellFounded_replaces`), since every placeholder has a weight that exceeds the
weights of what it is bound to, and no replacement changes the value of the term. So all sequences
end in the same term, which is the resolved one.

What is resolved is untouched by resolving it again, now or under further bindings. Goals that are
resolved when a search enters them or puts them off therefore say the same under the final bindings
as the goals as they were asked.
-/

namespace Monotonicity

open Relation

namespace Subst

variable {σ τ : Subst} {t u : Term} {θ : Nat → Term} {i : Nat}

/-! ## One replacement -/

/-- One occurrence of a bound placeholder is replaced by the term that it is bound to. -/
inductive Replaces (σ : Subst) : Term → Term → Prop
  | here {i : Nat} {t : Term} (h : σ.get? i = some t) : Replaces σ (.var i) t
  | argument {t u : Term} (head : String) (before after : List Term) (h : Replaces σ t u) :
      Replaces σ (.app head (before ++ t :: after)) (.app head (before ++ u :: after))
  | scrutinee {s u : Term} (arms : List (Arm Term)) (h : Replaces σ s u) :
      Replaces σ (.cases s arms) (.cases u arms)
  | body {t u : Term} (s : Term) (before after : List (Arm Term)) (ctor : String) (arity : Nat)
      (h : Replaces σ t u) :
      Replaces σ (.cases s (before ++ ⟨ctor, arity, t⟩ :: after))
        (.cases s (before ++ ⟨ctor, arity, u⟩ :: after))

/-- A replacement changes nothing under an assignment that agrees with the bindings. -/
theorem Replaces.subst_eq (h : σ.Replaces t u) (hθ : σ.Solves θ) : u.subst θ = t.subst θ := by
  induction h with
  | here h => exact (hθ _ _ h).symm
  | argument head before after h ih => simp [ih]
  | scrutinee arms h ih => simp [ih]
  | body s before after ctor arity h ih => simp [ih]

/-- The placeholder replaced makes room for those of the term that it is bound to. -/
theorem Replaces.exists_vars (h : σ.Replaces t u) :
    ∃ before i after v, σ.get? i = some v ∧ t.vars = before ++ i :: after ∧
      u.vars = before ++ v.vars ++ after := by
  induction h with
  | @here i t h => exact ⟨[], i, [], t, h, by simp [Term.vars], by simp⟩
  | @argument t u head bs as h ih =>
    obtain ⟨before, i, after, v, hi, ht, hu⟩ := ih
    refine ⟨bs.flatMap Term.vars ++ before, i, after ++ as.flatMap Term.vars, v, hi, ?_, ?_⟩
    · simp [Term.vars, Term.varsAll_eq_flatMap, ht]
    · simp [Term.vars, Term.varsAll_eq_flatMap, hu]
  | @scrutinee s u arms h ih =>
    obtain ⟨before, i, after, v, hi, ht, hu⟩ := ih
    refine ⟨before, i, after ++ Term.varsArms arms, v, hi, ?_, ?_⟩
    · simp [Term.vars, ht]
    · simp [Term.vars, hu]
  | @body t u s bs as ctor arity h ih =>
    obtain ⟨before, i, after, v, hi, ht, hu⟩ := ih
    refine ⟨s.vars ++ bs.flatMap (·.body.vars) ++ before, i, after ++ as.flatMap (·.body.vars), v,
      hi, ?_, ?_⟩
    · simp [Term.vars, Term.varsArms_eq_flatMap, ht]
    · simp [Term.vars, Term.varsArms_eq_flatMap, hu]

/-- Where a bound placeholder occurs, there is something to replace. -/
theorem exists_replaces (hi : i ∈ t.vars) (hb : σ.get? i = some u) : ∃ v, σ.Replaces t v := by
  induction t using Term.induction with
  | var j =>
    obtain rfl : i = j := by simpa using hi
    exact ⟨u, .here hb⟩
  | app head args ih =>
    obtain ⟨t, ht, hi⟩ := Term.mem_vars_app.1 hi
    obtain ⟨v, hv⟩ := ih t ht hi
    obtain ⟨before, after, rfl⟩ := List.append_of_mem ht
    exact ⟨_, .argument head before after hv⟩
  | cases s arms ihs ih =>
    rcases Term.mem_vars_cases.1 hi with hi | ⟨⟨ctor, arity, t⟩, harm, hi⟩
    · obtain ⟨v, hv⟩ := ihs hi
      exact ⟨_, .scrutinee arms hv⟩
    · obtain ⟨v, hv⟩ := ih _ harm hi
      obtain ⟨before, after, rfl⟩ := List.append_of_mem harm
      exact ⟨_, .body s before after ctor arity hv⟩

theorem leaves_iff_not_replaces : σ.Leaves t ↔ ∀ u, ¬ σ.Replaces t u := by
  constructor
  · intro h u hu
    obtain ⟨before, i, after, v, hi, ht, -⟩ := hu.exists_vars
    have hnone := h i (by simp [ht])
    simp [hi] at hnone
  · intro h i hi
    by_contra hb
    obtain ⟨v, hv⟩ := Option.ne_none_iff_exists'.1 hb
    obtain ⟨u, hu⟩ := exists_replaces hi hv
    exact h u hu

/-! ## Replacing until nothing is left -/

/-- An unbound placeholder weighs nothing, and a bound one more than the placeholders of the term
that it is bound to. -/
noncomputable def Acyclic.weight (hσ : σ.Acyclic) : Nat → Nat :=
  hσ.wf.fix fun i weight =>
    match h : σ.get? i with
    | none => 0
    | some t => (t.vars.attach.map fun j => weight j.1 ⟨t, h, j.2⟩).sum + 1

theorem Acyclic.weight_of_bound (hσ : σ.Acyclic) (hi : σ.get? i = some t) :
    hσ.weight i = (t.vars.map hσ.weight).sum + 1 := by
  rw [weight, hσ.wf.fix_eq]
  split
  · next h => simp [hi] at h
  · next u h =>
    obtain rfl : t = u := by simpa [hi] using h
    rw [List.attach_map_val]

/-- No sequence of replacements goes on forever. -/
theorem Acyclic.wellFounded_replaces (hσ : σ.Acyclic) :
    WellFounded fun u t => σ.Replaces t u := by
  refine Subrelation.wf (fun {u t} h => ?_) (measure fun t : Term => (t.vars.map hσ.weight).sum).wf
  obtain ⟨before, i, after, v, hi, ht, hu⟩ := h.exists_vars
  show (u.vars.map hσ.weight).sum < (t.vars.map hσ.weight).sum
  simp only [ht, hu, List.map_append, List.map_cons, List.sum_append, List.sum_cons,
    hσ.weight_of_bound hi]
  omega

/-- Replacements keep the value of a term. -/
theorem Acyclic.resolve_eq_of_replaces (hσ : σ.Acyclic) (h : ReflTransGen σ.Replaces t u) :
    σ.resolve u = σ.resolve t := by
  induction h with
  | refl => rfl
  | tail _ h ih => rw [← ih, hσ.resolve_eq_subst, hσ.resolve_eq_subst, h.subst_eq hσ.solves_value]

/-- When nothing is left to replace, the term is resolved. -/
theorem Acyclic.eq_resolve_of_leaves (hσ : σ.Acyclic) (h : ReflTransGen σ.Replaces t u)
    (hu : σ.Leaves u) : u = σ.resolve t := by
  rw [← hσ.resolve_eq_of_replaces h, hu.resolve_eq]

/-- Replacing as long as something is left to replace resolves a term. -/
theorem Acyclic.replaces_resolve (hσ : σ.Acyclic) (t : Term) :
    ReflTransGen σ.Replaces t (σ.resolve t) := by
  induction t using hσ.wellFounded_replaces.induction with
  | _ t ih =>
    by_cases ht : σ.Leaves t
    · rw [ht.resolve_eq]
    · rw [leaves_iff_not_replaces] at ht
      push Not at ht
      obtain ⟨u, hu⟩ := ht
      rw [← hσ.resolve_eq_of_replaces (.single hu)]
      exact .head hu (ih u hu)

/-! ## Further bindings -/

/-- What `σ` binds, `τ` binds to the same term. -/
def Extends (τ σ : Subst) : Prop := ∀ i t, σ.get? i = some t → τ.get? i = some t

theorem Acyclic.extends_of_le (hτ : τ.Acyclic) (h : σ ≤ τ) : τ.Extends σ :=
  fun _ _ hi => get?_of_le hτ.nodup h hi

/-- What was resolved has the same value under further bindings as what it was resolved from. -/
theorem Extends.resolve_resolve (h : τ.Extends σ) (hτ : τ.Acyclic) (t : Term) :
    τ.resolve (σ.resolve t) = τ.resolve t := by
  have hsolves : σ.Solves τ.value := fun i t hi => hτ.solves_value i t (h i t hi)
  rw [hτ.resolve_eq_subst, hτ.resolve_eq_subst, hsolves.resolve]

theorem Extends.pending_resolve (h : τ.Extends σ) (hτ : τ.Acyclic) (p : Pending) :
    (p.resolve σ).resolve τ = p.resolve τ := by
  have hyps (x : Hypothesis) : (x.resolve σ).resolve τ = x.resolve τ := by
    simp [Hypothesis.resolve, h.resolve_resolve hτ]
  have goal (g : Goal) : (g.resolve σ).resolve τ = g.resolve τ := by
    cases g <;> simp [Goal.resolve, Goal.map, h.resolve_resolve hτ]
  simp [Pending.resolve, goal, hyps, Function.comp_def]

/-- `apply_subst` replaces bound placeholders until none is left, whichever is taken first, and what
is resolved says the same as before, now and under all further bindings. -/
theorem resolve_full_idempotent_monotone (hσ : σ.Acyclic) (t : Term) :
    σ.Leaves (σ.resolve t) ∧
    (WellFounded fun u t => σ.Replaces t u) ∧
    (∀ u, ReflTransGen σ.Replaces t u ∧ (∀ v, ¬ σ.Replaces u v) ↔ u = σ.resolve t) ∧
    σ.resolve (σ.resolve t) = σ.resolve t ∧
    ∀ τ : Subst, τ.Acyclic → τ.Extends σ →
      τ.resolve (σ.resolve t) = τ.resolve t ∧
      ∀ p : Pending, (p.resolve σ).resolve τ = p.resolve τ := by
  have hleaves := hσ.leaves_resolve t
  refine ⟨hleaves, hσ.wellFounded_replaces, fun u => ?_, hleaves.resolve_eq, fun τ hτ h => ?_⟩
  · rw [← leaves_iff_not_replaces]
    constructor
    · rintro ⟨hu, hend⟩
      exact hσ.eq_resolve_of_leaves hu hend
    · rintro rfl
      exact ⟨hσ.replaces_resolve t, hleaves⟩
  · exact ⟨h.resolve_resolve hτ t, h.pending_resolve hτ⟩

/-- A chain of bindings made front to back, and then one more behind its end. -/
theorem resolve_chain :
    let σ := (Subst.empty.bind 0 (.app "f" [.var 1, .var 1])).bind 1 (.app "g" [.var 2])
    let τ := σ.bind 2 (.const "c")
    let t := Term.cases (.var 0) [⟨"some", 1, .var 1⟩]
    σ.resolve (σ.resolve t) = σ.resolve t ∧ σ.resolve t ≠ t ∧
      τ.resolve (σ.resolve t) = τ.resolve t ∧ τ.resolve t ≠ σ.resolve t := by
  intro σ τ t
  have hσ : σ.Acyclic :=
    (acyclic_empty.bind_of_occurs (by decide +kernel) (by decide +kernel)).bind_of_occurs
      (by decide +kernel) (by decide +kernel)
  have hτ : τ.Acyclic := hσ.bind_of_occurs (by decide +kernel) (by decide +kernel)
  have h := resolve_full_idempotent_monotone hσ t
  exact ⟨h.2.2.2.1, by decide +kernel,
    (h.2.2.2.2 τ hτ (hτ.extends_of_le (le_bind ..))).1, by decide +kernel⟩

end Subst

end Monotonicity
