import Monotonicity.Proofs.Term.Placeholders
import Monotonicity.Substitution.Basic

/-!
# Stages of a substitution

Bindings are only added at the end of the trail, so the substitutions that a search goes through are
stages of the last one. `σ ≤ τ` says that `σ` is a stage of `τ`: the trail of `τ` goes on from that
of `σ`. Going back from `τ` to the length of a stage gives the stage (`rollback_of_le`).

`σ.Solves θ` says that an assignment `θ` of terms to placeholders agrees with every binding.
Following bindings, at the root of a term or everywhere in it, changes nothing under such an
assignment, and this holds however far they are followed.
-/

namespace Monotonicity

namespace Subst

variable {σ τ υ : Subst} {i : Nat} {t : Term} {θ : Nat → Term}

theorem trail_injective (h : σ.trail = τ.trail) : σ = τ := by
  induction σ generalizing τ with
  | empty =>
    cases τ with
    | empty => rfl
    | bind τ j u => simp [trail] at h
  | bind σ i t ih =>
    cases τ with
    | empty => simp [trail] at h
    | bind τ j u =>
      simp only [trail, List.cons.injEq, Prod.mk.injEq] at h
      obtain ⟨⟨rfl, rfl⟩, h⟩ := h
      rw [ih h]

/-! ## Stages -/

instance : LE Subst := ⟨fun σ τ => σ.trail <:+ τ.trail⟩

theorem le_def : σ ≤ τ ↔ σ.trail <:+ τ.trail := Iff.rfl

theorem le_refl (σ : Subst) : σ ≤ σ := List.suffix_refl _

theorem le_trans (h : σ ≤ τ) (h' : τ ≤ υ) : σ ≤ υ := List.IsSuffix.trans h h'

theorem le_bind (σ : Subst) (i : Nat) (t : Term) : σ ≤ σ.bind i t := List.suffix_cons ..

/-- Going back to the length of a stage gives the stage. -/
theorem rollback_of_le (h : σ ≤ τ) : τ.rollback σ.size = σ := by
  apply trail_injective
  obtain ⟨new, hnew⟩ := h
  have hsize : τ.size - σ.size = new.length := by
    rw [size_eq_length_trail, size_eq_length_trail, ← hnew, List.length_append]
    omega
  rw [rollback, hsize, trail_dropLast, ← hnew, List.drop_left]

/-! ## Bindings on the trail -/

theorem mem_trail_of_get? (h : σ.get? i = some t) : (i, t) ∈ σ.trail := by
  rw [get?_eq_lookup] at h
  obtain ⟨before, after, htrail, -⟩ := List.lookup_eq_some_iff.1 h
  simp [htrail]

theorem get?_eq_none_iff : σ.get? i = none ↔ i ∉ σ.trail.map Prod.fst := by
  rw [get?_eq_lookup, List.lookup_eq_none_iff]
  constructor
  · intro h hi
    obtain ⟨⟨j, u⟩, hmem, rfl⟩ := List.mem_map.1 hi
    simpa using h _ hmem
  · rintro h ⟨j, u⟩ hmem
    have hne : i ≠ j := fun e => h (e ▸ List.mem_map.2 ⟨_, hmem, rfl⟩)
    simpa using hne

/-- Where no placeholder is bound twice, a binding on the trail is the one that is found. -/
theorem get?_of_mem_trail (hσ : (σ.trail.map Prod.fst).Nodup) (h : (i, t) ∈ σ.trail) :
    σ.get? i = some t := by
  induction σ with
  | empty => simp [trail] at h
  | bind σ j u ih =>
    simp only [trail, List.map_cons, List.nodup_cons] at hσ
    rcases List.mem_cons.1 h with h | h
    · simp only [Prod.mk.injEq] at h
      rw [h.1, h.2, get?_bind_self]
    · have hne : i ≠ j := fun e => hσ.1 (e ▸ List.mem_map.2 ⟨_, h, rfl⟩)
      rw [get?_bind_of_ne σ hne, ih hσ.2 h]

/-- What a stage has bound stays bound to the same term. -/
theorem get?_of_le (hτ : (τ.trail.map Prod.fst).Nodup) (h : σ ≤ τ) (hi : σ.get? i = some t) :
    τ.get? i = some t :=
  get?_of_mem_trail hτ ((le_def.1 h).subset (mem_trail_of_get? hi))

/-! ## Assignments that agree with the bindings -/

/-- The assignment agrees with every binding. -/
def Solves (σ : Subst) (θ : Nat → Term) : Prop := ∀ i t, σ.get? i = some t → θ i = t.subst θ

theorem Solves.of_le (hτ : (τ.trail.map Prod.fst).Nodup) (h : σ ≤ τ) (hθ : τ.Solves θ) :
    σ.Solves θ :=
  fun i t hi => hθ i t (get?_of_le hτ h hi)

theorem solves_empty (θ : Nat → Term) : Subst.empty.Solves θ := by
  intro i t hi
  simp at hi

/-- To follow bindings at the root changes nothing under an assignment that agrees with them. -/
theorem Solves.walkFor (hθ : σ.Solves θ) (rest : Subst) (t : Term) :
    (σ.walkFor rest t).subst θ = t.subst θ := by
  induction rest generalizing t with
  | empty => simp [Subst.walkFor]
  | bind rest j u ih =>
    cases t with
    | app head args => simp [Subst.walkFor]
    | cases s arms => simp [Subst.walkFor]
    | var i =>
      simp only [Subst.walkFor]
      split
      · rename_i t hi
        rw [ih, Term.subst_var_eq, hθ i t hi]
      · rfl

theorem Solves.walk (hθ : σ.Solves θ) (t : Term) : (σ.walk t).subst θ = t.subst θ :=
  hθ.walkFor σ t

/-- To follow bindings everywhere changes nothing under an assignment that agrees with them. -/
theorem Solves.resolveFor (hθ : σ.Solves θ) (rest : Subst) (t : Term) :
    (σ.resolveFor rest t).subst θ = t.subst θ := by
  induction rest generalizing t with
  | empty => simp [Subst.resolveFor]
  | bind rest j u ih =>
    rw [Subst.resolveFor, Term.replace_eq_subst, Term.subst_subst]
    apply Term.subst_congr
    intro i hi
    split
    · rename_i t hi
      rw [ih, hθ i t hi]
    · rfl

theorem Solves.resolve (hθ : σ.Solves θ) (t : Term) : (σ.resolve t).subst θ = t.subst θ :=
  hθ.resolveFor σ t

end Subst

end Monotonicity
