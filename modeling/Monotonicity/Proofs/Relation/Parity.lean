import Mathlib.Algebra.Group.Nat.Even
import Monotonicity.Proofs.Substitution.Traversal

/-!
# Views and the parity of converses

A view takes converses off a relation and follows bindings between them. All that is left of the
converses is whether their number is odd: behind them is a core, and the view shows either the
core's head or the converse of the core (`Acyclic.view_or_flip`). So one more converse turns the one
view into the other, and two more change nothing. Where the converses stand does not matter, on the
relation itself or behind any number of bindings (`Tower.unflipFor_eq`).

Nor does it matter whether a relation is looked at as it is or with its bindings followed: the view
of its value shows the values of what is seen of it.
-/

namespace Monotonicity

namespace Subst

variable {σ rest : Subst} {t core base : Term} {odd odd' : Bool} {n : Nat}

theorem unflipFor_not (h : σ.unflipFor rest odd t = (odd', core)) :
    σ.unflipFor rest (!odd) t = (!odd', core) := by
  induction rest generalizing t odd with
  | empty =>
    rw [unflipFor] at h ⊢
    rw [Term.unflip_not, h]
  | bind rest j u ih =>
    obtain ⟨o, c, hc⟩ : ∃ o c, t.unflip odd = (o, c) := ⟨_, _, rfl⟩
    simp only [unflipFor, Term.unflip_not odd t, hc] at h ⊢
    cases c with
    | app head args => simpa using h
    | cases s arms => simpa using h
    | var i =>
      cases hb : σ.get? i with
      | none => simpa [hb] using h
      | some v =>
        simp only [hb] at h ⊢
        exact ih h

/-! ## A core and its converse -/

/-- What is left behind the converses is seen as it is. -/
theorem Acyclic.view_core (hσ : σ.Acyclic) (hcore : core.IsCore)
    (hvar : ∀ i, core = .var i → σ.get? i = none) : σ.view core = .ofHead core := by
  have hwalk : σ.walk core = core := by
    cases core with
    | var i => exact walk_of_unbound (hvar i rfl)
    | app head args => exact walk_of_ne_var (by simp)
    | cases s arms => exact walk_of_ne_var (by simp)
  rw [view, hσ.unflipFor_core hwalk hcore]

/-- A relation is seen as a core or as the converse of one, and its converse as the other of the
two. -/
theorem Acyclic.view_or_flip (hσ : σ.Acyclic) (t : Term) :
    ∃ core : Term, (∀ u, σ.view core ≠ .flip u) ∧
      (σ.view t = .flip core ∧ σ.view t.flip = σ.view core ∨
        σ.view t = σ.view core ∧ σ.view t.flip = .flip core) := by
  obtain ⟨odd, core, h⟩ : ∃ odd core, σ.unflipFor σ false t = (odd, core) := ⟨_, _, rfl⟩
  obtain ⟨-, hcore, hvar⟩ := hσ.unflipFor_eq (enough_self σ t) h
  have hflip : σ.unflipFor σ false t.flip = (!odd, core) := by
    rw [unflipFor_flip]
    exact unflipFor_not h
  have hseen := hσ.view_core hcore hvar
  refine ⟨core, fun u => hseen ▸ hcore.ofHead_ne_flip u, ?_⟩
  rw [hseen, view, view, h, hflip]
  cases odd with
  | true => exact .inl ⟨rfl, rfl⟩
  | false => exact .inr ⟨rfl, rfl⟩

/-! ## Towers of converses -/

/-- The base stands behind so many converses, any of which may be behind bound placeholders. -/
inductive Tower (σ : Subst) (base : Term) : Nat → Term → Prop
  | base : Tower σ base 0 base
  | flip {n : Nat} {t : Term} (h : Tower σ base n t) : Tower σ base (n + 1) t.flip
  | bound {n i : Nat} {t : Term} (hb : σ.get? i = some t) (h : Tower σ base n t) :
      Tower σ base n (.var i)

/-- Of a tower only the parity of its height is seen. -/
theorem Tower.unflipFor_eq (h : σ.Tower base n t) (hσ : σ.Acyclic) (odd : Bool) :
    σ.unflipFor σ odd t = σ.unflipFor σ (if Even n then odd else !odd) base := by
  induction h generalizing odd with
  | base => simp
  | @flip n t h ih =>
    rw [unflipFor_flip, ih]
    by_cases hn : Even n <;> simp [Nat.even_add_one, hn]
  | bound hb h ih => rw [hσ.unflipFor_of_bound hb, ih]

theorem Tower.view_eq (h : σ.Tower base n t) (hσ : σ.Acyclic) :
    σ.view t = if Even n then σ.view base else σ.view base.flip := by
  have hseen := h.unflipFor_eq hσ false
  by_cases hn : Even n
  · rw [if_pos hn] at hseen ⊢
    rw [view, view, hseen]
  · rw [if_neg hn] at hseen ⊢
    rw [view, view, hseen, unflipFor_flip]

/-! ## Views of values -/

/-- The view of a value shows the values of what is seen. -/
theorem Acyclic.view_of_resolve (hσ : σ.Acyclic) (t : Term) :
    σ.view (σ.resolve t) = (σ.view t).map σ.resolve := by
  rw [(hσ.leaves_resolve t).view_eq, hσ.view_resolve]

/-- Converses cancel completely in `view`, however they are spread over the bindings, and a relation
and its value look the same. -/
theorem view_normalises_converses (hσ : σ.Acyclic) (r : Term) :
    σ.view r.flip.flip = σ.view r ∧
    (∀ x, σ.view r = .flip x → σ.view r.flip = σ.view x ∧ ∀ y, σ.view x ≠ .flip y) ∧
    ((∀ x, σ.view r ≠ .flip x) → ∃ x, σ.view r.flip = .flip x ∧ σ.view x = σ.view r) ∧
    ((σ.view (σ.resolve r)).shape = (σ.view r).shape ∧
      (σ.view (σ.resolve r)).map σ.resolve = (σ.view r).map σ.resolve) ∧
    ∀ n t, σ.Tower r n t → σ.view t = if Even n then σ.view r else σ.view r.flip := by
  obtain ⟨core, hcore, hviews⟩ := hσ.view_or_flip r
  refine ⟨?_, fun x hx => ?_, fun hne => ?_, ⟨?_, ?_⟩, fun n t h => h.view_eq hσ⟩
  · have htower : σ.Tower r 2 r.flip.flip := .flip (.flip .base)
    rw [htower.view_eq hσ, if_pos (by decide)]
  · rcases hviews with ⟨hr, hflip⟩ | ⟨hr, -⟩
    · obtain rfl : core = x := by simpa using hr.symm.trans hx
      exact ⟨hflip, hcore⟩
    · exact (hcore x (hr.symm.trans hx)).elim
  · rcases hviews with ⟨hr, -⟩ | ⟨hr, hflip⟩
    · exact (hne core hr).elim
    · exact ⟨core, hflip, hr.symm⟩
  · rw [hσ.view_of_resolve, View.shape_map]
  · rw [hσ.view_of_resolve, View.map_map]
    congr 1
    funext u
    exact hσ.resolve_resolve (le_refl σ) u

/-- Three converses spread over two bindings, in front of an arrow that is bound itself. -/
theorem view_of_spread_converses :
    let arrow : Term := .arrow (.const "A") (.var 3)
    let σ := ((Subst.empty.bind 0 (Term.var 1).flip).bind 1 (Term.var 2).flip.flip).bind 2 arrow
    σ.Acyclic ∧ σ.view (.var 0) = .flip arrow ∧
      (σ.view (Term.var 0).flip = σ.view arrow ∧ ∀ y, σ.view arrow ≠ .flip y) ∧
      σ.Tower (.var 2) 3 (.var 0) ∧ σ.view (.var 0) = σ.view (Term.var 2).flip := by
  intro arrow σ
  have hσ : σ.Acyclic :=
    ((acyclic_empty.bind_of_occurs (by decide +kernel) (by decide +kernel)).bind_of_occurs
      (by decide +kernel) (by decide +kernel)).bind_of_occurs (by decide +kernel)
      (by decide +kernel)
  have hview : σ.view (.var 0) = .flip arrow := by decide +kernel
  have htower : σ.Tower (.var 2) 3 (.var 0) :=
    .bound (t := (Term.var 1).flip) (by decide +kernel)
      (.flip (.bound (t := (Term.var 2).flip.flip) (by decide +kernel) (.flip (.flip .base))))
  refine ⟨hσ, hview, (view_normalises_converses hσ (.var 0)).2.1 arrow hview, htower, ?_⟩
  exact (view_normalises_converses hσ (.var 2)).2.2.2.2 3 _ htower

end Subst

end Monotonicity
