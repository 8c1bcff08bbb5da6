import Monotonicity.Proofs.Query.Observation
import Monotonicity.Proofs.Relation.Core

/-!
# Relations that look the same

Two relations are taken for one another if their views are equal: then the one is included in the
other without further ado, and a fact about the one is a fact about the other. A view can be read
back. What it shows is what the relation comes to under the bindings when adjacent pairs of
converses are cancelled, so relations that look the same are the same up to such pairs
(`same_relation_of_view_eq`).

The exception is a case analysis, of which nothing is seen. Any two of them look the same.
-/

namespace Monotonicity

namespace Term

variable {t core : Term} {odd odd' : Bool}

/-- Adjacent pairs of converses taken off the outside of a relation. -/
def cancel : Term → Term
  | .app head [.app head' [rel]] =>
    if head = Reserved.flip ∧ head' = Reserved.flip then rel.cancel
    else .app head [.app head' [rel]]
  | t => t

theorem cancel_flip_flip (t : Term) : t.flip.flip.cancel = t.cancel := by
  simp [flip, cancel]

theorem IsCore.cancel_eq (h : t.IsCore) : t.cancel = t := by
  unfold cancel
  split
  · next head head' rel =>
    split
    · next hflips => exact (h (.app head' [rel]) (by rw [hflips.1]; rfl)).elim
    · rfl
  · rfl

theorem IsCore.cancel_flip (h : t.IsCore) : t.flip.cancel = t.flip := by
  unfold flip cancel
  split
  · next head head' rel heq =>
    split
    · next hflips =>
      simp only [app.injEq, List.cons.injEq, and_true] at heq
      exact (h rel (by rw [heq.2, hflips.2]; rfl)).elim
    · exact heq.symm
  · rfl

/-- With converses counted from a parity: what is left is a core, or the converse of one if their
number is odd. -/
theorem cancel_of_unflip (h : t.unflip odd = (odd', core)) :
    (if odd then t.flip else t).cancel = if odd' then core.flip else core := by
  have hleft (hcore : core.IsCore) (odd : Bool) :
      (if odd then core.flip else core).cancel = if odd then core.flip else core := by
    cases odd with
    | true => exact hcore.cancel_flip
    | false => exact hcore.cancel_eq
  have hcore := isCore_of_unflip h
  fun_induction unflip odd t with
  | case1 odd rel ih =>
    rw [← ih h]
    cases odd with
    | true => exact cancel_flip_flip rel
    | false => rfl
  | case2 odd head rel hne =>
    cases h
    exact hleft hcore _
  | case3 odd t hne =>
    cases h
    exact hleft hcore _

/-- Nothing is seen of a relation just if it comes to a case analysis. -/
theorem view_eq_stuck_iff : t.view = .stuck ↔ ∃ s arms, t.cancel = .cases s arms := by
  obtain ⟨odd, core, h⟩ : ∃ odd core, t.unflip false = (odd, core) := ⟨_, _, rfl⟩
  have hcancel : t.cancel = if odd then core.flip else core := cancel_of_unflip h
  rw [view_of_unflip h, hcancel]
  cases odd with
  | true => simp [flip]
  | false =>
    constructor
    · exact of_ofHead_eq_stuck
    · rintro ⟨s, arms, hcases⟩
      rw [if_neg (by simp)] at hcases
      rw [hcases]
      rfl

end Term

theorem View.map_eq_stuck_iff {v : View} {f : Term → Term} : v.map f = .stuck ↔ v = .stuck := by
  cases v <;> simp [View.map]

namespace Subst

variable {σ : Subst} {r r' : Term}

/-- Relations that look the same to `view` under the bindings are the same when the bindings are
followed and adjacent pairs of converses are cancelled, unless they come to case analyses. -/
theorem same_relation_of_view_eq (hσ : σ.Acyclic) (h : σ.view r = σ.view r')
    (hseen : ∀ s arms, (σ.resolve r).cancel ≠ .cases s arms) :
    (σ.resolve r).cancel = (σ.resolve r').cancel := by
  have hstuck : σ.view r ≠ .stuck := by
    intro hstuck
    have hvalue : (σ.resolve r).view = .stuck := by
      rw [hσ.view_resolve, View.map_eq_stuck_iff, hstuck]
    obtain ⟨s, arms, hcases⟩ := Term.view_eq_stuck_iff.1 hvalue
    exact hseen s arms hcases
  have hsame := hσ.solves_value.unflip_congr hσ h hstuck
  rw [← hσ.resolve_eq_subst, ← hσ.resolve_eq_subst] at hsame
  obtain ⟨odd, core, hcore⟩ : ∃ odd core, (σ.resolve r').unflip false = (odd, core) := ⟨_, _, rfl⟩
  have hr := Term.cancel_of_unflip (hsame.trans hcore)
  have hr' := Term.cancel_of_unflip hcore
  exact hr.trans hr'.symm

/-- The converse of `?0` and `?1` look the same where `?0` is the converse of `?1`, and they are the
same but for two converses. -/
theorem same_relation_behind_binding :
    let σ := (Subst.empty.bind 0 (Term.var 1).flip).bind 1 (.arrow (.const "A") (.var 3))
    σ.view (Term.var 0).flip = σ.view (.var 1) ∧
    σ.resolve (Term.var 0).flip = (σ.resolve (.var 1)).flip.flip ∧
    (σ.resolve (Term.var 0).flip).cancel = (σ.resolve (.var 1)).cancel := by
  intro σ
  have hfirst : Subst.empty.unify (.var 0) (Term.var 1).flip =
      some (Subst.empty.bind 0 (Term.var 1).flip) := rfl
  have hsecond : (Subst.empty.bind 0 (Term.var 1).flip).unify (.var 1)
      (.arrow (.const "A") (.var 3)) = some σ := rfl
  have hσ : σ.Acyclic := (unify_gains hsecond).acyclic ((unify_gains hfirst).acyclic acyclic_empty)
  have hview : σ.view (Term.var 0).flip = σ.view (.var 1) := rfl
  have hcancel : (σ.resolve (Term.var 0).flip).cancel = .arrow (.const "A") (.var 3) := rfl
  refine ⟨hview, rfl, same_relation_of_view_eq hσ hview fun s arms => ?_⟩
  rw [hcancel]
  simp [Term.arrow]

end Subst

namespace Engine

/-- An engine that was told that the relation made from `R` by a case analysis of `s` holds between
`a` and `b`. -/
def withAnalysis : Engine :=
  let told : Option (Nat × Registry) :=
    Registry.addFact? {} (.cases (.const "s") [⟨"C", 0, .const "R"⟩]) (.const "a") (.const "b")
      (.const "w")
  { Engine.new {} with theory := { Theory.standard {} with registry := (told.map (·.2)).getD {} } }

/-- The relation made from `S` by a case analysis of `t` looks the same and is another one. The one is
found to be included in the other, and the other to hold between `a` and `b`. -/
theorem withAnalysis_confuses :
    let r : Term := .cases (.const "s") [⟨"C", 0, .const "R"⟩]
    let r' : Term := .cases (.const "t") [⟨"C", 0, .const "S"⟩]
    Subst.empty.Acyclic ∧ Subst.empty.view r = Subst.empty.view r' ∧
    (Subst.empty.resolve r).cancel ≠ (Subst.empty.resolve r').cancel ∧
    (∃ sol, (withAnalysis.solve (.subrel r r')).1.result = .ok sol ∧ sol.isSolved = true) ∧
    ∃ sol, (withAnalysis.solve (.related r' (.const "a") (.const "b"))).1.result = .ok sol ∧
      sol.isSolved = true := by
  intro r r'
  refine ⟨Subst.acyclic_empty, rfl, by decide +kernel, ?_, ?_⟩
  · exact exists_ok_of_any (by decide +kernel)
  · exact exists_ok_of_any (by decide +kernel)

end Engine

end Monotonicity
