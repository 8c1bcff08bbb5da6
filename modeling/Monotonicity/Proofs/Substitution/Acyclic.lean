import Mathlib.Data.List.Perm.Subperm
import Mathlib.Logic.Relation
import Mathlib.Order.WellFounded
import Monotonicity.Proofs.Substitution.Stages

/-!
# Acyclic substitutions

A substitution is acyclic if no placeholder is bound twice and none reaches itself through the
bindings. Then no chain of bindings is longer than the trail, so the functions that follow bindings
for as many steps as the trail is long follow them to the end: `resolve_eq_subst` says so for
`resolve`, `walk_eq_var` for `walk` and `occurs_of_reaches` for `occurs`.

The values of an acyclic substitution form an assignment that agrees with its bindings
(`solves_value`). So equations that hold under every such assignment hold of the values, and the
values are the same whether they are taken at once or first at an earlier stage
(`resolve_resolve`).
-/

namespace Monotonicity

open Relation

namespace Subst

variable {σ τ rest rest' : Subst} {i j : Nat} {t u v : Term} {θ : Nat → Term}

/-- Placeholder `j` occurs in the term that `i` is bound to. -/
def Needs (σ : Subst) (j i : Nat) : Prop := ∃ t, σ.get? i = some t ∧ j ∈ t.vars

/-- No placeholder is bound twice, and none reaches itself through the bindings. -/
structure Acyclic (σ : Subst) : Prop where
  nodup : (σ.trail.map Prod.fst).Nodup
  wf : WellFounded σ.Needs

theorem acyclic_empty : Subst.empty.Acyclic where
  nodup := List.nodup_nil
  wf := ⟨fun i => ⟨i, by rintro j ⟨t, h, -⟩; simp at h⟩⟩

theorem Acyclic.of_le (hτ : τ.Acyclic) (h : σ ≤ τ) : σ.Acyclic where
  nodup := hτ.nodup.sublist ((le_def.1 h).sublist.map _)
  wf := Subrelation.wf (fun ⟨t, hi, hj⟩ => ⟨t, get?_of_le hτ.nodup h hi, hj⟩) hτ.wf

theorem Acyclic.not_reaches_self (hσ : σ.Acyclic) (i : Nat) : ¬ TransGen σ.Needs i i :=
  fun h => hσ.wf.transGen.irrefl.irrefl i h

/-! ## A new binding -/

/-- Placeholder `i` is reached from a term through the bindings. -/
def Reaches (σ : Subst) (t : Term) (i : Nat) : Prop := ∃ j ∈ t.vars, ReflTransGen σ.Needs i j

theorem needs_bind_of_ne {k : Nat} (h : k ≠ i) : (σ.bind i t).Needs j k ↔ σ.Needs j k := by
  simp [Needs, get?_bind_of_ne σ h]

/-- Where the new placeholder is not reached, the new binding is not met. -/
theorem Acyclic.acc_of_not_reaches (hσ : σ.Acyclic) (k : Nat) (hk : ¬ ReflTransGen σ.Needs i k) :
    Acc (σ.bind i t).Needs k := by
  induction k using hσ.wf.induction with
  | h k ih =>
    have hne : k ≠ i := by
      rintro rfl
      exact hk .refl
    constructor
    intro j hj
    rw [needs_bind_of_ne hne] at hj
    exact ih j hj fun hij => hk (hij.tail hj)

/-- Binding an unbound placeholder to a term from which it is not reached keeps a substitution
acyclic. -/
theorem Acyclic.bind (hσ : σ.Acyclic) (hi : σ.get? i = none) (hr : ¬ σ.Reaches t i) :
    (σ.bind i t).Acyclic where
  nodup := by
    simp only [trail, List.map_cons, List.nodup_cons]
    exact ⟨get?_eq_none_iff.1 hi, hσ.nodup⟩
  wf := by
    have hnew : Acc (σ.bind i t).Needs i := by
      constructor
      rintro j ⟨u, hu, hj⟩
      simp only [get?_bind_self, Option.some.injEq] at hu
      subst hu
      exact hσ.acc_of_not_reaches j fun hij => hr ⟨j, hj, hij⟩
    refine ⟨fun k => ?_⟩
    induction k using hσ.wf.induction with
    | h k ih =>
      by_cases hk : k = i
      · exact hk ▸ hnew
      · exact ⟨k, fun j hj => ih j ((needs_bind_of_ne hk).1 hj)⟩

/-! ## Enough room to follow all bindings -/

/-- There are as many bindings left to follow as there are placeholders that may still be met below
`t`, given those that were met on the way to it. -/
def Enough (σ rest : Subst) (t : Term) : Prop :=
  ∃ visited : List Nat, visited.Nodup ∧ (∀ v ∈ visited, σ.get? v ≠ none) ∧
    (∀ v ∈ visited, ∀ j ∈ t.vars, TransGen σ.Needs j v) ∧ σ.size ≤ visited.length + rest.size

theorem enough_self (σ : Subst) (t : Term) : σ.Enough σ t := ⟨[], by simp⟩

/-- Placeholders met on the way are not met again. -/
theorem Acyclic.not_mem_visited (hσ : σ.Acyclic) {visited : List Nat} (hj : j ∈ t.vars)
    (hv : ∀ v ∈ visited, ∀ j ∈ t.vars, TransGen σ.Needs j v) : j ∉ visited :=
  fun h => hσ.not_reaches_self j (hv j h j hj)

theorem Enough.follow (hσ : σ.Acyclic) (h : σ.Enough (rest.bind j u) t) (hi : i ∈ t.vars)
    (hb : σ.get? i = some v) : σ.Enough rest v := by
  obtain ⟨visited, hn, hbound, hbelow, hlen⟩ := h
  have hnot : i ∉ visited := hσ.not_mem_visited hi hbelow
  refine ⟨i :: visited, List.nodup_cons.2 ⟨hnot, hn⟩, ?_, ?_, ?_⟩
  · intro m hm
    rcases List.mem_cons.1 hm with rfl | hm
    · simp [hb]
    · exact hbound m hm
  · intro m hm k hk
    have hki : σ.Needs k i := ⟨v, hb, hk⟩
    rcases List.mem_cons.1 hm with rfl | hm
    · exact .single hki
    · exact .head hki (hbelow m hm i hi)
  · simp only [size_bind, List.length_cons] at hlen ⊢
    omega

/-- When no room is left, every bound placeholder was met on the way. -/
theorem Enough.unbound (hσ : σ.Acyclic) (h : σ.Enough .empty t) (hi : i ∈ t.vars) :
    σ.get? i = none := by
  obtain ⟨visited, hn, hbound, hbelow, hlen⟩ := h
  by_contra hb
  have hnot : i ∉ visited := hσ.not_mem_visited hi hbelow
  have hsub : i :: visited ⊆ σ.trail.map Prod.fst := by
    intro m hm
    by_contra hnone
    rw [← get?_eq_none_iff] at hnone
    rcases List.mem_cons.1 hm with rfl | hm
    · exact hb hnone
    · exact hbound m hm hnone
  have hle := (List.subperm_of_subset (List.nodup_cons.2 ⟨hnot, hn⟩) hsub).length_le
  rw [List.length_map, ← size_eq_length_trail, List.length_cons] at hle
  simp only [size] at hlen
  omega

/-! ## Values -/

/-- The value of a placeholder. -/
def value (σ : Subst) (i : Nat) : Term := σ.resolve (.var i)

theorem value_of_unbound (h : σ.get? i = none) : σ.value i = .var i := by
  cases hσ : σ with
  | empty => simp [value, resolve, resolveFor]
  | bind rest j u => simp [value, resolve, resolveFor, ← hσ, h]

/-- Any two amounts of room that suffice give the same result. -/
theorem Acyclic.resolveFor_eq (hσ : σ.Acyclic) (h : σ.Enough rest t) (h' : σ.Enough rest' t) :
    σ.resolveFor rest t = σ.resolveFor rest' t := by
  have hstop {rest t} (h : σ.Enough .empty t) : σ.resolveFor rest t = t := by
    cases rest with
    | empty => rfl
    | bind rest j u =>
      rw [resolveFor, Term.replace_eq_subst]
      conv_rhs => rw [← Term.subst_var t]
      exact Term.subst_congr fun i hi => by simp [h.unbound hσ hi]
  induction rest generalizing t rest' with
  | empty => rw [hstop h, hstop h]
  | bind rest j u ih =>
    cases rest' with
    | empty => rw [hstop h', hstop h']
    | bind rest' j' u' =>
      simp only [resolveFor, Term.replace_eq_subst]
      apply Term.subst_congr
      intro i hi
      cases hb : σ.get? i with
      | none => rfl
      | some w => exact ih (h.follow hσ hi hb) (h'.follow hσ hi hb)

/-- On a whole trail there is enough room behind its first binding. -/
theorem Acyclic.enough_of_bound (hσ : σ.Acyclic) (he : σ = rest.bind j u)
    (hb : σ.get? i = some v) : σ.Enough rest v := by
  have h : σ.Enough (rest.bind j u) (.var i) := by
    rw [← he]
    exact enough_self σ _
  exact h.follow hσ (by simp) hb

theorem Acyclic.value_of_bound (hσ : σ.Acyclic) (hb : σ.get? i = some t) :
    σ.value i = σ.resolve t := by
  cases he : σ with
  | empty => simp [he] at hb
  | bind rest j u =>
    rw [← he, resolve, ← hσ.resolveFor_eq (hσ.enough_of_bound he hb) (enough_self σ t), value,
      resolve]
    conv_lhs => rw [he]
    simp [resolveFor, ← he, hb]

/-- Resolving a term is replacing its placeholders by their values. -/
theorem Acyclic.resolve_eq_subst (hσ : σ.Acyclic) (t : Term) : σ.resolve t = t.subst σ.value := by
  cases he : σ with
  | empty =>
    have hvalue : Subst.empty.value = Term.var := funext fun i => value_of_unbound (by simp)
    rw [hvalue, Term.subst_var]
    rfl
  | bind rest j u =>
    rw [← he, resolve]
    conv_lhs => rw [he]
    rw [resolveFor, Term.replace_eq_subst, ← he]
    apply Term.subst_congr
    intro i _
    cases hb : σ.get? i with
    | none => rw [value_of_unbound hb]
    | some w =>
      rw [hσ.value_of_bound hb]
      exact hσ.resolveFor_eq (hσ.enough_of_bound he hb) (enough_self σ w)

/-- The values agree with the bindings. -/
theorem Acyclic.solves_value (hσ : σ.Acyclic) : σ.Solves σ.value := by
  intro i t hi
  rw [hσ.value_of_bound hi, hσ.resolve_eq_subst]

/-- What every assignment that agrees with the bindings makes equal has equal values. -/
theorem Acyclic.resolve_eq_of_solves (hτ : τ.Acyclic) (h : σ ≤ τ)
    (heq : ∀ θ, σ.Solves θ → t.subst θ = u.subst θ) : τ.resolve t = τ.resolve u := by
  rw [hτ.resolve_eq_subst, hτ.resolve_eq_subst]
  exact heq _ (hτ.solves_value.of_le hτ.nodup h)

/-- Values are the same whether they are taken at once or first at an earlier stage. -/
theorem Acyclic.resolve_resolve (hτ : τ.Acyclic) (h : σ ≤ τ) (t : Term) :
    τ.resolve (σ.resolve t) = τ.resolve t :=
  hτ.resolve_eq_of_solves h fun _ hθ => hθ.resolve t

theorem Acyclic.resolve_walk (hτ : τ.Acyclic) (h : σ ≤ τ) (t : Term) :
    τ.resolve (σ.walk t) = τ.resolve t :=
  hτ.resolve_eq_of_solves h fun _ hθ => hθ.walk t

/-! ## Following bindings to the end -/

/-- A walk ends at a term that is no placeholder or at an unbound one. -/
theorem Acyclic.walkFor_eq_var (hσ : σ.Acyclic) (h : σ.Enough rest t)
    (ht : σ.walkFor rest t = .var i) : σ.get? i = none := by
  induction rest generalizing t with
  | empty =>
    simp only [walkFor] at ht
    exact h.unbound hσ (by simp [ht])
  | bind rest j u ih =>
    cases t with
    | app head args => simp [walkFor] at ht
    | cases s arms => simp [walkFor] at ht
    | var k =>
      simp only [walkFor] at ht
      cases hb : σ.get? k with
      | none =>
        simp only [hb, Term.var.injEq] at ht
        rw [← ht, hb]
      | some w =>
        simp only [hb] at ht
        exact ih (h.follow hσ (by simp) hb) ht

theorem Acyclic.walk_eq_var (hσ : σ.Acyclic) (ht : σ.walk t = .var i) : σ.get? i = none :=
  hσ.walkFor_eq_var (enough_self σ t) ht

/-- An unbound placeholder is reached by itself only, and a bound one through its term. -/
theorem reflTransGen_needs (h : ReflTransGen σ.Needs i j) :
    i = j ∨ ∃ t, σ.get? j = some t ∧ σ.Reaches t i := by
  rcases ReflTransGen.cases_tail h with rfl | ⟨k, hik, t, ht, hk⟩
  · exact .inl rfl
  · exact .inr ⟨t, ht, k, hk, hik⟩

theorem Acyclic.reachesFor_of_reaches (hσ : σ.Acyclic) (h : σ.Enough rest t)
    (hi : σ.get? i = none) (hr : σ.Reaches t i) : σ.reachesFor (· == i) rest t = true := by
  induction rest generalizing t with
  | empty =>
    obtain ⟨j, hj, hij⟩ := hr
    have hnone := h.unbound hσ hj
    rcases reflTransGen_needs hij with rfl | ⟨w, hw, -⟩
    · rw [reachesFor, Term.any_eq_any_vars, List.any_eq_true]
      exact ⟨i, hj, by simp [isBound, hi]⟩
    · rw [hnone] at hw
      cases hw
  | bind rest k u ih =>
    obtain ⟨j, hj, hij⟩ := hr
    rw [reachesFor, Term.any_eq_any_vars, List.any_eq_true]
    refine ⟨j, hj, ?_⟩
    rcases reflTransGen_needs hij with rfl | ⟨w, hw, hr⟩
    · simp [hi]
    · simp only [hw]
      exact ih (h.follow hσ hj hw) hr

/-- A placeholder that is reached from a term is found to occur in it. -/
theorem Acyclic.occurs_of_reaches (hσ : σ.Acyclic) (hi : σ.get? i = none) (hr : σ.Reaches t i) :
    σ.occurs i t = true :=
  hσ.reachesFor_of_reaches (enough_self σ t) hi hr

theorem Acyclic.bind_of_occurs (hσ : σ.Acyclic) (hi : σ.get? i = none)
    (ho : σ.occurs i t = false) : (σ.bind i t).Acyclic :=
  hσ.bind hi fun hr => by simp [hσ.occurs_of_reaches hi hr] at ho

end Subst

end Monotonicity
