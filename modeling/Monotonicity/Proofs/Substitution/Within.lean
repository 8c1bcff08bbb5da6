import Monotonicity.Proofs.Substitution.Unifier
import Monotonicity.Proofs.Term.Stable

/-!
# Bindings within a class of terms

Take a stable class of terms such that the placeholders in it are bound to members. The values of
members are members then. Unification binds placeholders to subterms of what it is given and of what
is bound already: if the terms to be unified are members, then so are those that placeholders of the
class are bound to afterwards, and a placeholder outside of the class is bound as before.
-/

namespace Monotonicity

namespace Subst

variable {Q : Term → Prop} {σ τ υ : Subst} {a b t : Term} {i : Nat}

/-- The placeholders of a class are bound to members of it. -/
def Within (Q : Term → Prop) (σ : Subst) : Prop :=
  ∀ i t, Q (.var i) → σ.get? i = some t → Q t

theorem within_empty : Subst.empty.Within Q := by
  intro i t _ h
  simp at h

theorem Within.bind (hσ : σ.Within Q) (i : Nat) (ht : Q t) : (σ.bind i t).Within Q := by
  intro j u hj hu
  by_cases h : j = i
  · subst h
    rw [get?_bind_self, Option.some.injEq] at hu
    exact hu ▸ ht
  · rw [get?_bind_of_ne σ h] at hu
    exact hσ j u hj hu

/-- Fewer bindings are within a class too. -/
theorem Within.of_le (hτ : τ.Within Q) (hnodup : (τ.trail.map Prod.fst).Nodup) (h : σ ≤ τ) :
    σ.Within Q :=
  fun i t hi ht => hτ i t hi (get?_of_le hnodup h ht)

theorem Within.walk (hσ : σ.Within Q) (ht : Q t) : Q (σ.walk t) := by
  suffices h : ∀ rest, Q (σ.walkFor rest t) from h σ
  intro rest
  fun_induction walkFor σ rest t with
  | case1 rest _ _ i u hu ih => exact ih (hσ i u ht hu)
  | case2 => exact ht
  | case3 => exact ht

theorem Within.resolve (hσ : σ.Within Q) (hQ : Term.Stable Q) (ht : Q t) : Q (σ.resolve t) := by
  suffices h : ∀ rest t, Q t → Q (σ.resolveFor rest t) from h σ t ht
  intro rest
  induction rest with
  | empty => exact fun t ht => ht
  | bind rest j u ih =>
    intro t ht
    rw [resolveFor, Term.replace_eq_subst]
    refine hQ.subst ht fun i hi => ?_
    cases hget : σ.get? i with
    | none => exact hQ.var ht hi
    | some v => exact ih v (hσ i v (hQ.var ht hi) hget)

/-! ## Unification -/

/-- From `σ` to `τ` only placeholders of the class were bound, and to members of it. -/
structure Confined (Q : Term → Prop) (σ τ : Subst) : Prop where
  within : τ.Within Q
  outside : ∀ i, ¬ Q (.var i) → τ.get? i = σ.get? i

theorem Within.confined (hσ : σ.Within Q) : σ.Confined Q σ := ⟨hσ, fun _ _ => rfl⟩

theorem Confined.trans (h : σ.Confined Q τ) (h' : τ.Confined Q υ) : σ.Confined Q υ where
  within := h'.within
  outside i hi := (h'.outside i hi).trans (h.outside i hi)

theorem Within.confined_bind (hσ : σ.Within Q) (hi : Q (.var i)) (ht : Q t) :
    σ.Confined Q (σ.bind i t) := by
  refine ⟨hσ.bind i ht, fun j hj => get?_bind_of_ne σ ?_ t⟩
  rintro rfl
  exact hj hi

theorem Within.assign? (hσ : σ.Within Q) (hi : Q (.var i)) (ht : Q t)
    (h : σ.assign? i t = some τ) : σ.Confined Q τ := by
  obtain ⟨-, -, rfl⟩ := assign?_eq_some.1 h
  exact hσ.confined_bind hi ht

theorem Within.fill? (hσ : σ.Within Q) (hi : Q (.var i)) (ht : Q t)
    (h : σ.fill? i t = some τ) : σ.Confined Q τ := by
  unfold Subst.fill? at h
  split at h
  · split at h
    · cases h
      exact hσ.confined
    · split at h
      · obtain ⟨-, rfl⟩ := bindNew?_eq_some.1 h
        exact hσ.confined_bind ht hi
      · obtain ⟨-, rfl⟩ := bindNew?_eq_some.1 h
        exact hσ.confined_bind hi ht
  · exact hσ.assign? hi ht h

/-- A way of unifying terms that binds placeholders of the class to members of it only. -/
def Confines (Q : Term → Prop) (run : Term → Term → Subst → Option Subst) : Prop :=
  ∀ a b σ τ, Q a → Q b → σ.Within Q → run a b σ = some τ → σ.Confined Q τ

section Descent

variable {follow : Term → Term → Subst → Option Subst}

theorem descendAll_confined {xs ys : List Term}
    (hstep : ∀ x ∈ xs, ∀ b σ τ, Q x → Q b → σ.Within Q → descend follow x b σ = some τ →
      σ.Confined Q τ)
    (hxs : ∀ x ∈ xs, Q x) (hys : ∀ y ∈ ys, Q y) (hσ : σ.Within Q)
    (h : descendAll follow xs ys σ = some τ) : σ.Confined Q τ := by
  induction xs generalizing ys τ with
  | nil =>
    simp only [descendAll, Option.some.injEq] at h
    exact h ▸ hσ.confined
  | cons x xs ih =>
    cases ys with
    | nil =>
      simp only [descendAll, Option.some.injEq] at h
      exact h ▸ hσ.confined
    | cons y ys =>
      simp only [descendAll, Option.bind_eq_some_iff] at h
      obtain ⟨υ, hυ, hτ⟩ := h
      rw [List.forall_mem_cons] at hstep hxs hys
      have hrest := ih hstep.2 hxs.2 hys.2 hυ
      exact hrest.trans (hstep.1 y υ τ hxs.1 hys.1 hrest.within hτ)

theorem descendArms_confined {xs ys : List (Arm Term)}
    (hstep : ∀ x ∈ xs, ∀ b σ τ, Q x.body → Q b → σ.Within Q →
      descend follow x.body b σ = some τ → σ.Confined Q τ)
    (hxs : ∀ x ∈ xs, Q x.body) (hys : ∀ y ∈ ys, Q y.body) (hσ : σ.Within Q)
    (h : descendArms follow xs ys σ = some τ) : σ.Confined Q τ := by
  induction xs generalizing ys τ with
  | nil =>
    simp only [descendArms, Option.some.injEq] at h
    exact h ▸ hσ.confined
  | cons x xs ih =>
    cases ys with
    | nil =>
      simp only [descendArms, Option.some.injEq] at h
      exact h ▸ hσ.confined
    | cons y ys =>
      obtain ⟨c, n, x⟩ := x
      simp only [descendArms, Option.bind_eq_some_iff] at h
      obtain ⟨υ, hυ, hτ⟩ := h
      rw [List.forall_mem_cons] at hstep hxs hys
      have hrest := ih hstep.2 hxs.2 hys.2 hυ
      exact hrest.trans (hstep.1 y.body υ τ hxs.1 hys.1 hrest.within hτ)

theorem descend_confines (hQ : Term.Stable Q) (hfollow : Confines Q follow) :
    Confines Q (descend follow) := by
  intro a
  induction a using Term.induction with
  | var i =>
    intro b σ τ ha hb hσ h
    simp only [descend] at h
    split at h
    · next t ht => exact hfollow t b σ τ (hσ i t ha ht) hb hσ h
    · exact hσ.fill? ha (hσ.walk hb) h
  | app f xs ih =>
    intro b σ τ ha hb hσ h
    have hwalk := hσ.walk hb
    simp only [descend] at h
    split at h
    · cases h
      exact hσ.confined
    · split at h
      · next j hj => exact hσ.assign? (hj ▸ hwalk) ha h
      · next g ys hg =>
        rw [hg] at hwalk
        split at h
        · exact descendAll_confined ih (hQ.args ha) (hQ.args hwalk) hσ h
        · cases h
      · cases h
  | cases s xs ihs ih =>
    intro b σ τ ha hb hσ h
    have hwalk := hσ.walk hb
    simp only [descend] at h
    split at h
    · cases h
      exact hσ.confined
    · split at h
      · next j hj => exact hσ.assign? (hj ▸ hwalk) ha h
      · next t ys hg =>
        rw [hg] at hwalk
        split at h
        · obtain ⟨υ, hυ, hτ⟩ := Option.bind_eq_some_iff.1 h
          have harms := descendArms_confined ih (hQ.bodies ha) (hQ.bodies hwalk) hσ hυ
          exact harms.trans
            (ihs t υ τ (hQ.scrutinee ha) (hQ.scrutinee hwalk) harms.within hτ)
        · cases h
      · cases h

end Descent

theorem unifyFor_confines (hQ : Term.Stable Q) (budget : Budget) :
    Confines Q (unifyFor budget) := by
  induction budget with
  | spent => exact descend_confines hQ fun _ _ _ _ _ _ _ h => by cases h
  | more rest ih => exact descend_confines hQ (ih ())

/-- Unifying members of a class binds its placeholders to members only. -/
theorem Within.unify (hσ : σ.Within Q) (hQ : Term.Stable Q) (ha : Q a) (hb : Q b)
    (h : σ.unify a b = some τ) : σ.Confined Q τ :=
  unifyFor_confines hQ _ a b σ τ ha hb hσ h

end Subst

end Monotonicity
