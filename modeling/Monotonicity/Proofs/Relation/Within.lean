import Monotonicity.Proofs.Relation.Converse
import Monotonicity.Proofs.Substitution.Within

/-!
# Views within a class of terms

Looking at a relation through bindings within a stable class does not lead out of the class: the
parts of the view of a member are members. The relation of a family over a set of placeholders, at
indices over it, is over it too.
-/

namespace Monotonicity

variable {Q : Term → Prop} {V : Nat → Prop} {σ : Subst} {t u core : Term} {odd odd' : Bool}

namespace Term

theorem Stable.unflip (hQ : Stable Q) (ht : Q t) (h : t.unflip odd = (odd', core)) : Q core := by
  fun_induction Term.unflip odd t with
  | case1 odd rel ih => exact ih (hQ.args ht rel (by simp)) h
  | case2 odd head rel hne =>
    cases h
    exact ht
  | case3 odd t hne =>
    cases h
    exact ht

theorem Stable.of_mem_ofHead (hQ : Stable Q) (ht : Q t) (hu : u ∈ (View.ofHead t).parts) :
    Q u := by
  cases t with
  | var i => simp [View.ofHead, View.parts] at hu
  | cases s arms => simp [View.ofHead, View.parts] at hu
  | app head args => exact hQ.args ht u (mem_of_mem_parts hu)

end Term

namespace Subst

theorem Within.unflipFor (hσ : σ.Within Q) (hQ : Term.Stable Q) (rest : Subst) (odd : Bool)
    (ht : Q t) : Q (σ.unflipFor rest odd t).2 := by
  induction rest generalizing odd t with
  | empty => exact hQ.unflip ht rfl
  | bind rest j u ih =>
    rw [Subst.unflipFor]
    split
    · next odd' i h =>
      have hi : Q (.var i) := hQ.unflip ht h
      split
      · next v hv => exact ih odd' (hσ i v hi hv)
      · exact hi
    · exact hQ.unflip ht rfl

/-- The parts that are seen of a member are members. -/
theorem Within.of_mem_parts (hσ : σ.Within Q) (hQ : Term.Stable Q) (ht : Q t)
    (hu : u ∈ (σ.view t).parts) : Q u := by
  have hcore := hσ.unflipFor hQ σ false ht
  unfold Subst.view at hu
  split at hu
  · next core h =>
    rw [h] at hcore
    obtain rfl : u = core := by simpa [View.parts] using hu
    exact hcore
  · next core h =>
    rw [h] at hcore
    exact hQ.of_mem_ofHead hcore hu

theorem Within.family? {family left right edge : Term} (hσ : σ.Within (Term.Over V))
    (hfamily : family.Over V) (hleft : left.Over V) (hright : right.Over V) (hedge : edge.Over V)
    (h : σ.family? family left right edge = some u) : u.Over V := by
  have hwalk := hσ.walk hfamily
  have hindices : ∀ x ∈ [left, right, edge], x.Over V := by simp [hleft, hright, hedge]
  unfold Subst.family? at h
  split at h
  · next head rel hw =>
    rw [hw, Term.over_app] at hwalk
    have hrel := hwalk rel (by simp)
    split at h <;> cases h
    · exact hrel
    · simp [hrel, hleft, hright, hedge]
  · exact hwalk.extend? hindices h

end Subst

end Monotonicity
