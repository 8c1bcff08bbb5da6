import Monotonicity.Proofs.Relation.View
import Monotonicity.Proofs.Relation.Within
import Monotonicity.Proofs.Term.Built

/-!
# What a view shows

A view shows what is left of a relation when pairs of converses are cancelled, unless that is a case
analysis. So what was seen of a relation at some moment is, up to converses, what it is under every
assignment that agrees with the bindings of the moment. In a relation without case analyses
something is always seen, and in a plain one no dependent arrow.
-/

namespace Monotonicity

/-- What a view shows, with the parity of the converses taken off it. Of a case analysis nothing is
seen. -/
def View.core? : View → Option (Bool × Term)
  | .equality => some (false, .equality)
  | .top => some (false, .const Reserved.top)
  | .bottom => some (false, .const Reserved.bottom)
  | .arrow dom cod => some (false, .arrow dom cod)
  | .dependent edge family => some (false, .app Reserved.dependent [edge, family])
  | .flip rel => some (true, rel)
  | .named head args => some (false, .app head args)
  | .placeholder i => some (false, .var i)
  | .stuck => none

namespace Term

variable {P : String → Nat → Prop} {t u core : Term} {odd odd' : Bool} {c : Bool × Term}

/-- A relation that is no converse is shown as it is. -/
theorem IsCore.core?_ofHead (h : t.IsCore) (hc : (View.ofHead t).core? = some c) :
    c = (false, t) := by
  cases t with
  | var i => simpa [View.ofHead, View.core?, eq_comm] using hc
  | cases s arms => simp [View.ofHead, View.core?] at hc
  | app head args =>
    rcases args with _ | ⟨a, _ | ⟨b, _ | ⟨d, rest⟩⟩⟩
    · simp only [View.ofHead] at hc
      split_ifs at hc with h₁ h₂ h₃ <;> simp_all [View.core?, equality]
    · simp only [View.ofHead] at hc
      split_ifs at hc with hflip
      · exact (h a (by rw [hflip]; rfl)).elim
      · simpa [View.core?, eq_comm] using hc
    · simp only [View.ofHead] at hc
      split_ifs at hc with h₁ h₂ <;> simp_all [View.core?, arrow]
    · simpa [View.ofHead, View.core?, eq_comm] using hc

theorem of_ofHead_eq_stuck (h : View.ofHead t = .stuck) : ∃ s arms, t = .cases s arms := by
  cases t with
  | var i => simp [View.ofHead] at h
  | cases s arms => exact ⟨s, arms, rfl⟩
  | app head args =>
    rcases args with _ | ⟨a, _ | ⟨b, _ | ⟨d, rest⟩⟩⟩
    · simp only [View.ofHead] at h
      split_ifs at h
    · simp only [View.ofHead] at h
      split_ifs at h
    · simp only [View.ofHead] at h
      split_ifs at h
    · simp [View.ofHead] at h

theorem Built.of_mem_parts (h : t.Built P) (hu : u ∈ t.view.parts) : u.Built P :=
  Subst.within_empty.of_mem_parts stable_built h hu

theorem built_of_mem_parts {θ : Nat → Term} (h : (t.subst θ).Built P) (hu : u ∈ t.view.parts) :
    (u.subst θ).Built P := by
  rw [built_subst] at h ⊢
  exact ⟨h.1.of_mem_parts hu, fun i hi => h.2 i (vars_of_mem_parts hu hi)⟩

theorem ground_of_mem_parts {θ : Nat → Term} (h : (t.subst θ).ground = true)
    (hu : u ∈ t.view.parts) : (u.subst θ).ground = true := by
  rw [ground_subst] at h ⊢
  exact fun i hi => h i (vars_of_mem_parts hu hi)

theorem ground_of_unflip_eq (ht : t.ground = true) (h : t.unflip odd = u.unflip odd') :
    u.ground = true := by
  obtain ⟨o, core, hu⟩ : ∃ o core, u.unflip odd' = (o, core) := ⟨_, _, rfl⟩
  rw [ground_iff, List.eq_nil_iff_forall_not_mem] at ht ⊢
  intro i hi
  exact ht i ((mem_vars_unflip (h.trans hu)).1 ((mem_vars_unflip hu).2 hi))

end Term

namespace Subst

variable {P : String → Nat → Prop} {σ : Subst} {θ : Nat → Term} {t u core : Term} {odd : Bool}

/-- What a view shows is what is left when the converses are taken off. -/
theorem Acyclic.unflipFor_of_view {c : Bool × Term} (hσ : σ.Acyclic)
    (h : (σ.view t).core? = some c) : σ.unflipFor σ false t = c := by
  obtain ⟨odd, core, hu⟩ : ∃ odd core, σ.unflipFor σ false t = (odd, core) := ⟨_, _, rfl⟩
  have hcore := (hσ.unflipFor_eq (enough_self σ t) hu).2.1
  rw [view, hu] at h
  cases odd with
  | true => rwa [hu, ← Option.some.injEq]
  | false => rw [hu, hcore.core?_ofHead h]

/-- Taking converses off through the bindings is, under every assignment that agrees with them,
taking them off, but for those that the assignment brings. -/
theorem Solves.unflipFor (hθ : σ.Solves θ) (hσ : σ.Acyclic)
    (h : σ.unflipFor σ false t = (odd, core)) :
    (t.subst θ).unflip false = (core.subst θ).unflip odd := by
  have hvalue := (hσ.unflipFor_eq (enough_self σ t) h).1
  obtain ⟨o, c, hc⟩ : ∃ o c, (σ.resolve core).unflip odd = (o, c) := ⟨_, _, rfl⟩
  rw [← hθ.resolve t, ← hθ.resolve core, Term.unflip_subst θ (hvalue.trans hc),
    Term.unflip_subst θ hc]

/-- What was seen of a relation is what it is later, up to converses. -/
theorem Solves.unflip_of_view (hθ : σ.Solves θ) (hσ : σ.Acyclic)
    (h : (σ.view t).core? = some (odd, core)) :
    (t.subst θ).unflip false = (core.subst θ).unflip odd :=
  hθ.unflipFor hσ (hσ.unflipFor_of_view h)

/-- Relations that looked the same are the same up to converses, unless they are case analyses. -/
theorem Solves.unflip_congr (hθ : σ.Solves θ) (hσ : σ.Acyclic) (h : σ.view t = σ.view u)
    (hseen : σ.view t ≠ .stuck) : (t.subst θ).unflip false = (u.subst θ).unflip false := by
  obtain ⟨⟨odd, core⟩, hc⟩ : ∃ c, (σ.view t).core? = some c := by
    cases hv : σ.view t with
    | stuck => exact (hseen hv).elim
    | _ => exact ⟨_, rfl⟩
  rw [hθ.unflip_of_view hσ hc, hθ.unflip_of_view hσ (h ▸ hc)]

/-- Where there is no case analysis, something is seen. -/
theorem Solves.view_ne_stuck (hθ : σ.Solves θ) (hσ : σ.Acyclic) (h : (t.subst θ).Built P) :
    σ.view t ≠ .stuck := by
  obtain ⟨odd, core, hu⟩ : ∃ odd core, σ.unflipFor σ false t = (odd, core) := ⟨_, _, rfl⟩
  intro hstuck
  rw [view, hu] at hstuck
  cases odd with
  | true => cases hstuck
  | false =>
    obtain ⟨s, arms, rfl⟩ := Term.of_ofHead_eq_stuck hstuck
    have hcases := hθ.unflipFor hσ hu
    rw [Term.subst_cases] at hcases
    exact Term.not_built_cases _ _ (Term.stable_built.unflip h hcases)

end Subst

namespace Term

variable {P : String → Nat → Prop} {t : Term}

theorem Built.view_ne_stuck (h : t.Built P) : t.view ≠ .stuck := by
  refine (Subst.solves_empty .var).view_ne_stuck Subst.acyclic_empty (P := P) ?_
  rwa [subst_var]

theorem Plain.view_ne_dependent (h : t.Plain) (edge family : Term) :
    t.view ≠ .dependent edge family := by
  intro hview
  have hcore : t.unflip false = (false, .app Reserved.dependent [edge, family]) :=
    Subst.acyclic_empty.unflipFor_of_view (by rw [← Term.view, hview]; rfl)
  exact (built_app.1 (stable_built.unflip h hcore)).1 rfl rfl

end Term

end Monotonicity
