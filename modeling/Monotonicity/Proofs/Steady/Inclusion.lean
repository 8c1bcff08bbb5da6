import Monotonicity.Proofs.Calculus.Inclusion
import Monotonicity.Proofs.Search.Watch

/-!
# The rules for inclusions are steady

Registered inclusions are renamed to placeholders that no one has, so they are in sight wherever they
are used.
-/

namespace Monotonicity

open Search

variable {T : Theory} {ρ : Type} {fuel : Nat} {F : Handover} {s t : State} {goal g : Goal}
  {ps : List Proof} {S : ρ → State → Prop}

theorem steady_subrelRefl : Steady T fuel F .subrelRefl := by
  refine .of_gets subrelRefl (fun _ _ _ _ => rfl) (fun _ _ _ _ => rfl) fun goal s _ => ?_
  cases goal with
  | related rel left right => exact .noRule
  | subrel lesser greater =>
    refine Gets.subst ?_
    split
    · exact .pure emitted_start
    · have hunify : (Search.unify lesser greater).Gets s fun _ t =>
          Course T F s (.subrel lesser greater) [] t :=
        Course.start.unify_gets (fun V hV => (Goal.over_subrel.1 hV.goal).1)
          fun V hV => (Goal.over_subrel.1 hV.goal).2
      refine hunify.bind fun ok t _ ht => ?_
      cases ok with
      | true => exact .pure ⟨ht, by simp⟩
      | false => exact .noRule

theorem steady_subrelExtremes : Steady T fuel F .subrelExtremes := by
  refine .of_gets subrelExtremes (fun _ _ _ _ => rfl) (fun _ _ _ _ => rfl) fun goal s _ => ?_
  cases goal with
  | related rel left right => exact .noRule
  | subrel lesser greater =>
    refine subrelExtremes_gets.mono fun r t _ h => ?_
    obtain ⟨rfl, rfl, -⟩ := h
    exact emitted_start

/-! ## Registered inclusions -/

/-- Every registered inclusion is tried from the state that the first one found, renamed to
placeholders that are new there. -/
theorem eachInclusion_follows (hle : T.limits.fuel ≤ fuel) {run run' : Nat → Term → Term → Search ρ}
    (hrun : ∀ id (f : Inclusion) offset t, s.ledger.nextVar ≤ offset → s.Kept t →
      Follows T fuel (run id (f.lesser.rename offset) (f.greater.rename offset))
        (run' id (f.lesser.rename offset) (f.greater.rename offset)) t t.Grown S) :
    Follows T fuel (eachInclusion T goal run) (eachInclusion (T.refuel fuel) goal run') s s.Grown
      S := by
  refine tryEach_follows hle ?_ fun _ _ _ => .failBest .noRule
  rintro ⟨f, id⟩ - t ht
  refine reserve_gets.follows fun offset u _ h => ?_
  obtain ⟨hu, -, rfl⟩ := h
  exact hrun id f _ u ht.ledger.nextVar (ht.trans hu)

theorem steady_subrelFact (hle : T.limits.fuel ≤ fuel) : Steady T fuel F .subrelFact := by
  intro w prove prove' _ ρ name goal emit emit' s S _ _ hemit
  cases goal with
  | related rel left right => exact .noRule
  | subrel lesser greater =>
    simp only [Method.run, subrelFact]
    refine eachInclusion_follows hle fun id f offset t hoffset ht => ?_
    have hstart : Course T F s (.subrel lesser greater) [] t := Course.start.keep ht
    refine unify_follows hstart (fun V hV => (Goal.over_subrel.1 hV.goal).1)
      (fun V hV => hV.rename f.lesser hoffset) (fun u _ hu => ?_) fun _ => .noRule
    refine unify_follows hu (fun V hV => (Goal.over_subrel.1 hV.goal).2)
      (fun V hV => hV.rename f.greater hoffset) (fun v _ hv => ?_) fun _ => .noRule
    refine hemit _ v ⟨hv.leaf (.inclusion id) rfl ?_, by simp⟩
    simp [Proof.witness?]

theorem steady_subrelTrans (hle : T.limits.fuel ≤ fuel) : Steady T fuel F .subrelTrans := by
  intro w prove prove' _ ρ name goal emit emit' s S _ _ hemit
  cases goal with
  | related rel left right => exact .noRule
  | subrel lesser greater =>
    simp only [Method.run, subrelTrans]
    refine eachInclusion_follows hle fun id f offset t hoffset ht => ?_
    have hstart : Course T F s (.subrel lesser greater) [] t := Course.start.keep ht
    refine unify_follows hstart (fun V hV => (Goal.over_subrel.1 hV.goal).1)
      (fun V hV => hV.rename f.lesser hoffset) (fun u _ hu => ?_) fun _ => .noRule
    refine hemit _ u ⟨hu.leaf (.inclusion id) rfl (by simp [Proof.witness?]), fun V hV => ?_⟩
    simpa using ⟨hV.rename f.greater hoffset, (Goal.over_subrel.1 hV.goal).2⟩

/-! ## Structure -/

theorem over_of_mem_argumentGoals {V : Nat → Prop} {arguments : List (Term × Term × Variance)}
    (h : ∀ x ∈ arguments, x.1.Over V ∧ x.2.1.Over V) (hg : g ∈ argumentGoals arguments) :
    g.Over V := by
  fun_induction argumentGoals arguments with
  | case1 => cases hg
  | case2 a b rest ih =>
    rw [List.forall_mem_cons] at h
    rcases List.mem_cons.1 hg with rfl | hg
    · simpa using h.1
    · exact ih h.2 hg
  | case3 a b rest ih =>
    rw [List.forall_mem_cons] at h
    rcases List.mem_cons.1 hg with rfl | hg
    · simpa using h.1.symm
    · exact ih h.2 hg
  | case4 a b rest ih =>
    rw [List.forall_mem_cons] at h
    exact ih h.2 hg

/-- Arguments in sight are compared in a course. -/
theorem Course.argumentInclusions_gets (hacyclic : s.subst.Acyclic)
    {arguments : List (Term × Term × Variance)} (hcourse : Course T F s goal ps t)
    (h : ∀ V, Encloses T s goal V ps t → ∀ x ∈ arguments, x.1.Over V ∧ x.2.1.Over V) :
    (argumentInclusions g arguments).Gets t fun goals u =>
      Course T F s goal ps u ∧ goals = argumentGoals arguments := by
  induction arguments generalizing t with
  | nil => exact .pure ⟨hcourse, rfl⟩
  | cons x rest ih =>
    obtain ⟨a, b, v⟩ := x
    have hrest : ∀ V, Encloses T s goal V ps t → ∀ x ∈ rest, x.1.Over V ∧ x.2.1.Over V :=
      fun V hV x hx => h V hV x (List.mem_cons_of_mem _ hx)
    cases v with
    | covariant =>
      exact (ih hcourse hrest).bind fun goals u _ hu => .pure ⟨hu.1, by rw [hu.2]; rfl⟩
    | contravariant =>
      exact (ih hcourse hrest).bind fun goals u _ hu => .pure ⟨hu.1, by rw [hu.2]; rfl⟩
    | invariant =>
      refine (hcourse.unify_gets (fun V hV => (h V hV _ List.mem_cons_self).1)
        fun V hV => (h V hV _ List.mem_cons_self).2).bind fun ok u hu hnext => ?_
      cases ok with
      | false => exact .noRule
      | true =>
        refine ih hnext fun V hV => hrest V ?_
        exact hV.of_grown (hnext.grown.acyclic hacyclic) hu (List.prefix_refl _)

/-- What is seen of the two relations of an inclusion in sight is in sight. -/
theorem Encloses.subrel_parts {V : Nat → Prop} {lesser greater : Term} {v v' : View}
    (hV : Encloses T s (.subrel lesser greater) V ps t) (h : t.subst.view lesser = v)
    (h' : t.subst.view greater = v') : (∀ x ∈ v.parts, x.Over V) ∧ ∀ x ∈ v'.parts, x.Over V := by
  obtain ⟨hlesser, hgreater⟩ := Goal.over_subrel.1 hV.goal
  exact ⟨fun x hx => hV.view hlesser h hx, fun x hx => hV.view hgreater h' hx⟩

theorem steady_subrelStructural : Steady T fuel F .subrelStructural := by
  refine .of_gets (subrelStructural T) (fun _ _ _ _ => rfl) (fun _ _ _ _ => rfl)
    fun goal s hacyclic => ?_
  cases goal with
  | related rel left right => exact .noRule
  | subrel lesser greater =>
    refine Gets.subst ?_
    split
    · next a b a' b' h h' =>
      refine .pure ⟨.start, fun V hV => ?_⟩
      have hparts := hV.subrel_parts h h'
      simp only [View.parts, List.forall_mem_cons] at hparts
      simp [hparts]
    · next a b h h' =>
      refine .pure ⟨.start, fun V hV => ?_⟩
      have hparts := hV.subrel_parts h h'
      simp only [View.parts, List.forall_mem_cons] at hparts
      simp [hparts]
    · next e f e' f' h h' =>
      refine freshConst_gets.bind fun v t₁ _ h₁ => freshConst_gets.bind fun w t₂ _ h₂ => ?_
      refine freshConst_gets.bind fun x t₃ _ h₃ => ?_
      obtain ⟨hk₁, -, rfl⟩ := h₁
      obtain ⟨hk₂, -, rfl⟩ := h₂
      obtain ⟨hk₃, -, rfl⟩ := h₃
      have hk : s.Kept t₃ := (hk₁.trans hk₂).trans hk₃
      split
      · next r r' hr hr' =>
        refine .pure ⟨Course.start.keep hk, fun V hV => ?_⟩
        have hstart := hV.of_kept hk
        have hparts := hstart.subrel_parts h h'
        simp only [View.parts, List.forall_mem_cons] at hparts
        obtain ⟨⟨he, hf, -⟩, he', hf', -⟩ := hparts
        have hfamily := hstart.state.bindings.family? hf (by simp) (by simp) (by simp) hr
        have hfamily' := hstart.state.bindings.family? hf' (by simp) (by simp) (by simp) hr'
        simp [he, he', hfamily, hfamily']
      · exact .noRule
    · next head xs head' ys h h' =>
      split
      · refine (Gets.require .noRule).bind fun variances t _ hv => ?_
        obtain ⟨-, rfl⟩ := hv
        split
        · have harguments : ∀ V, Encloses T t (.subrel lesser greater) V [] t →
              ∀ x ∈ xs.zip (ys.zip variances), x.1.Over V ∧ x.2.1.Over V := by
            intro V hV x hx
            obtain ⟨hxs, hys⟩ := hV.subrel_parts h h'
            obtain ⟨hx₁, hx₂⟩ := List.of_mem_zip hx
            exact ⟨hxs _ hx₁, hys _ (List.of_mem_zip hx₂).1⟩
          have hcompare := (Course.start (F := F)).argumentInclusions_gets
            (g := .subrel lesser greater) hacyclic harguments
          refine hcompare.bind fun goals u hu hgoals => .pure ?_
          obtain ⟨hcourse, rfl⟩ := hgoals
          refine ⟨hcourse, fun V hV g hg => ?_⟩
          have hstart := hV.of_grown (hu.acyclic hacyclic) hu (List.prefix_refl _)
          exact over_of_mem_argumentGoals (harguments V hstart) hg
        · exact .noRule
      · exact .noRule
    · exact .noRule

end Monotonicity
