import Monotonicity.Proofs.Substitution.Acyclic
import Monotonicity.Substitution.Unification

/-!
# Unification makes terms equal

A successful unification adds bindings and takes none away, binds no placeholder twice, leaves a
trail without cycles if it was given one, and makes its two terms equal under every assignment that
agrees with the bindings. The budget plays no part in this: it can only make a unification fail.

The main result is `unify_gains`. `Gains.resolve_eq` reads an equation gained at one stage off as an
equation between values at every later stage.
-/

namespace Monotonicity

namespace Subst

variable {σ τ υ : Subst} {E F : (Nat → Term) → Prop} {a b t u : Term} {i j : Nat}

/-- From `σ` to the later stage `τ`, without binding a placeholder twice or making a cycle, in such
a way that every assignment that agrees with the bindings of `τ` has the property `E`. -/
structure Gains (σ τ : Subst) (E : (Nat → Term) → Prop) : Prop where
  le : σ ≤ τ
  nodup : (σ.trail.map Prod.fst).Nodup → (τ.trail.map Prod.fst).Nodup
  acyclic : σ.Acyclic → τ.Acyclic
  gain : τ.Acyclic → ∀ θ, τ.Solves θ → E θ

namespace Gains

theorem refl (h : ∀ θ, σ.Solves θ → E θ) : σ.Gains σ E := ⟨le_refl σ, id, id, fun _ => h⟩

theorem trans (h : σ.Gains τ E) (h' : τ.Gains υ F) : σ.Gains υ fun θ => E θ ∧ F θ where
  le := le_trans h.le h'.le
  nodup hσ := h'.nodup (h.nodup hσ)
  acyclic hσ := h'.acyclic (h.acyclic hσ)
  gain hυ θ hθ := by
    have hτ := hυ.of_le h'.le
    exact ⟨h.gain hτ θ (hθ.of_le hυ.nodup h'.le), h'.gain hυ θ hθ⟩

theorem mono (h : σ.Gains τ E) (hEF : ∀ θ, τ.Solves θ → E θ → F θ) : σ.Gains τ F :=
  ⟨h.le, h.nodup, h.acyclic, fun hτ θ hθ => hEF θ hθ (h.gain hτ θ hθ)⟩

/-- An assignment that agrees with a later stage agrees with the earlier one. -/
theorem solves (h : σ.Gains τ E) (hτ : τ.Acyclic) {θ : Nat → Term} (hθ : τ.Solves θ) :
    σ.Solves θ :=
  hθ.of_le hτ.nodup h.le

/-- An equation gained at one stage holds of the values at every later one. -/
theorem resolve_eq (h : σ.Gains τ fun θ => t.subst θ = u.subst θ) (hυ : υ.Acyclic) (hle : τ ≤ υ) :
    υ.resolve t = υ.resolve u :=
  hυ.resolve_eq_of_solves hle (h.gain (hυ.of_le hle))

end Gains

/-! ## Single bindings -/

/-- Binding a placeholder makes it equal to its term. -/
theorem solves_bind {θ : Nat → Term} (hθ : (σ.bind i t).Solves θ) : θ i = t.subst θ :=
  hθ i t (get?_bind_self σ i t)

theorem bind_gains (hi : σ.get? i = none) (hr : σ.Acyclic → ¬ σ.Reaches t i) :
    σ.Gains (σ.bind i t) fun θ => (Term.var i).subst θ = t.subst θ where
  le := le_bind σ i t
  nodup h := List.nodup_cons.2 ⟨get?_eq_none_iff.1 hi, h⟩
  acyclic h := h.bind hi (hr h)
  gain _ _ hθ := solves_bind hθ

/-- An unbound placeholder reaches nothing but itself. -/
theorem not_reaches_var (hi : σ.get? i = none) (hij : i ≠ j) : ¬ σ.Reaches (.var i) j := by
  rintro ⟨k, hk, hjk⟩
  obtain rfl : k = i := by simpa using hk
  rcases reflTransGen_needs hjk with rfl | ⟨t, ht, -⟩
  · exact hij rfl
  · rw [hi] at ht
    cases ht

theorem assign?_gains (h : σ.assign? i t = some τ) :
    σ.Gains τ fun θ => (Term.var i).subst θ = t.subst θ := by
  obtain ⟨ho, hi, rfl⟩ := assign?_eq_some.1 h
  refine bind_gains hi fun hσ hr => ?_
  rw [hσ.occurs_of_reaches hi hr] at ho
  cases ho

theorem fill?_gains (hi : σ.get? i = none) (ht : ∀ j, t = .var j → σ.Acyclic → σ.get? j = none)
    (h : σ.fill? i t = some τ) : σ.Gains τ fun θ => (Term.var i).subst θ = t.subst θ := by
  cases t with
  | var j =>
    simp only [fill?] at h
    split at h
    · next hij =>
      cases h
      exact .refl fun _ _ => by rw [hij]
    · next hij =>
      split at h
      · obtain ⟨hj, rfl⟩ := bindNew?_eq_some.1 h
        exact (bind_gains hj fun _ => not_reaches_var hi hij).mono fun _ _ => Eq.symm
      · obtain ⟨-, rfl⟩ := bindNew?_eq_some.1 h
        exact bind_gains hi fun hσ => not_reaches_var (ht j rfl hσ) (Ne.symm hij)
  | app head args => exact assign?_gains h
  | cases s arms => exact assign?_gains h

/-! ## Going down two terms -/

/-- What a way of unifying has to achieve. -/
def Unifies (run : Term → Term → Subst → Option Subst) : Prop :=
  ∀ a b σ τ, run a b σ = some τ → σ.Gains τ fun θ => a.subst θ = b.subst θ

section Descent

variable {follow : Term → Term → Subst → Option Subst}

/-- A term that the right side's root is followed to may stand for it. -/
theorem Gains.of_walk (h : σ.Gains τ fun θ => a.subst θ = (σ.walk b).subst θ) :
    σ.Gains τ fun θ => a.subst θ = b.subst θ where
  le := h.le
  nodup := h.nodup
  acyclic := h.acyclic
  gain hτ θ hθ := by
    rw [h.gain hτ θ hθ, (h.solves hτ hθ).walk]

theorem descendAll_gains {xs ys : List Term}
    (hxs : ∀ x ∈ xs, ∀ b σ τ, descend follow x b σ = some τ →
      σ.Gains τ fun θ => x.subst θ = b.subst θ)
    (hlen : xs.length = ys.length) (h : descendAll follow xs ys σ = some τ) :
    σ.Gains τ fun θ => xs.map (·.subst θ) = ys.map (·.subst θ) := by
  induction xs generalizing ys τ with
  | nil =>
    obtain rfl : ys = [] := by simpa using hlen.symm
    simp only [descendAll, Option.some.injEq] at h
    exact h ▸ .refl fun _ _ => rfl
  | cons x xs ih =>
    cases ys with
    | nil => simp at hlen
    | cons y ys =>
      simp only [descendAll, Option.bind_eq_some_iff] at h
      obtain ⟨υ, hυ, hτ⟩ := h
      have htail := ih (fun x hx => hxs x (List.mem_cons_of_mem _ hx)) (by simpa using hlen) hυ
      have hhead := hxs x List.mem_cons_self y υ τ hτ
      refine (htail.trans hhead).mono fun θ _ hE => ?_
      rw [List.map_cons, List.map_cons, hE.1, hE.2]

theorem descendArms_gains {xs ys : List (Arm Term)}
    (hxs : ∀ x ∈ xs, ∀ b σ τ, descend follow x.body b σ = some τ →
      σ.Gains τ fun θ => x.body.subst θ = b.subst θ)
    (halign : aligned xs ys = true) (h : descendArms follow xs ys σ = some τ) :
    σ.Gains τ fun θ => Term.substArms θ xs = Term.substArms θ ys := by
  induction xs generalizing ys τ with
  | nil =>
    cases ys with
    | nil =>
      simp only [descendArms, Option.some.injEq] at h
      exact h ▸ .refl fun _ _ => rfl
    | cons y ys => simp [aligned] at halign
  | cons x xs ih =>
    cases ys with
    | nil => simp [aligned] at halign
    | cons y ys =>
      obtain ⟨c, n, body⟩ := x
      obtain ⟨c', n', body'⟩ := y
      simp only [aligned, List.map_cons, beq_iff_eq, List.cons.injEq, Prod.mk.injEq] at halign
      obtain ⟨⟨rfl, rfl⟩, halign⟩ := halign
      simp only [descendArms, Option.bind_eq_some_iff] at h
      obtain ⟨υ, hυ, hτ⟩ := h
      have htail := ih (fun x hx => hxs x (List.mem_cons_of_mem _ hx))
        (by simpa [aligned] using halign) hυ
      have hhead := hxs _ List.mem_cons_self body' υ τ hτ
      refine (htail.trans hhead).mono fun θ _ hE => ?_
      simp only [Term.substArms, hE.1, hE.2]

/-- One way down unifies if the terms behind bound placeholders are unified. -/
theorem descend_unifies (hfollow : Unifies follow) : Unifies (descend follow) := by
  intro a
  induction a using Term.induction with
  | var i =>
    intro b σ τ h
    simp only [descend] at h
    split at h
    · next t ht =>
      have hg := hfollow _ _ _ _ h
      refine ⟨hg.le, hg.nodup, hg.acyclic, fun hτ θ hθ => ?_⟩
      rw [← hg.gain hτ θ hθ]
      exact (hg.solves hτ hθ) i t ht
    · next hi => exact (fill?_gains hi (fun j hj hσ => hσ.walk_eq_var hj) h).of_walk
  | app f xs ih =>
    intro b σ τ h
    simp only [descend] at h
    apply Gains.of_walk
    split at h
    · next heq =>
      cases h
      exact .refl fun θ _ => by rw [← heq]
    · cases hb : σ.walk b with
      | var j =>
        simp only [hb] at h
        exact (assign?_gains h).mono fun _ _ => Eq.symm
      | app g ys =>
        simp only [hb] at h
        split at h
        · next hfg =>
          refine (descendAll_gains ih hfg.2 h).mono fun θ _ hE => ?_
          simp only [Term.subst_app, hfg.1, hE]
        · cases h
      | cases t ys =>
        simp only [hb] at h
        cases h
  | cases s xs ihs ih =>
    intro b σ τ h
    simp only [descend] at h
    apply Gains.of_walk
    split at h
    · next heq =>
      cases h
      exact .refl fun θ _ => by rw [← heq]
    · cases hb : σ.walk b with
      | var j =>
        simp only [hb] at h
        exact (assign?_gains h).mono fun _ _ => Eq.symm
      | app g ys =>
        simp only [hb] at h
        cases h
      | cases t ys =>
        simp only [hb] at h
        split at h
        · next hal =>
          obtain ⟨υ, hυ, hτ⟩ := Option.bind_eq_some_iff.1 h
          refine ((descendArms_gains ih hal hυ).trans (ihs t υ τ hτ)).mono fun θ _ hE => ?_
          simp only [Term.subst, hE.1, hE.2]
        · cases h

end Descent

theorem unifyFor_unifies (budget : Budget) : Unifies (unifyFor budget) := by
  induction budget with
  | spent => exact descend_unifies fun _ _ _ _ h => by cases h
  | more rest ih => exact descend_unifies (ih ())

/-- A successful unification makes its two terms equal. -/
theorem unify_gains (h : σ.unify a b = some τ) : σ.Gains τ fun θ => a.subst θ = b.subst θ :=
  unifyFor_unifies _ a b σ τ h

/-! ## Several unifications -/

/-- The terms of each pair are unified, one pair after the other. -/
inductive Unified : Subst → List (Term × Term) → Subst → Prop
  | nil {σ : Subst} : Unified σ [] σ
  | cons {σ τ υ : Subst} {a b : Term} {pairs : List (Term × Term)}
      (h : σ.unify a b = some τ) (hrest : Unified τ pairs υ) :
      Unified σ ((a, b) :: pairs) υ

theorem unified_one (h : σ.unify a b = some τ) : Unified σ [(a, b)] τ := .cons h .nil

theorem Unified.gains {pairs : List (Term × Term)} (h : Unified σ pairs τ) :
    σ.Gains τ fun θ => ∀ p ∈ pairs, p.1.subst θ = p.2.subst θ := by
  induction h with
  | nil => exact .refl (by simp)
  | cons h _ ih =>
    refine ((unify_gains h).trans ih).mono fun θ _ hE => ?_
    simpa using hE

/-- What was unified has equal values at every later stage. -/
theorem Unified.resolve_eq {pairs : List (Term × Term)} (h : Unified σ pairs τ)
    (hp : (a, b) ∈ pairs) (hυ : υ.Acyclic) (hle : τ ≤ υ) : υ.resolve a = υ.resolve b :=
  (h.gains.mono fun _ _ hE => hE (a, b) hp).resolve_eq hυ hle

end Subst

end Monotonicity
