import Monotonicity.Proofs.Calculus.CaseSplit
import Monotonicity.Proofs.Calculus.Introduction
import Monotonicity.Proofs.Search.Watch

/-!
# The rules for constructors and case analyses are steady

What the arms of a case analysis in sight give when they are applied to fields is in sight, and so
are the relations that a scheme gives to the fields. The cases of a split raise nothing else.
-/

namespace Monotonicity

open Search

variable {T : Theory} {ρ : Type} {fuel : Nat} {F : Handover} {V : Nat → Prop}

/-! ## Reduction -/

theorem Term.Over.applyArm? {body u : Term} {fields : List Term} (hbody : body.Over V)
    (hfields : ∀ x ∈ fields, x.Over V) (h : applyArm? body fields = some u) : u.Over V := by
  unfold Monotonicity.applyArm? at h
  split at h
  · cases h
    exact hbody
  · exact hbody.extend? hfields h

theorem mem_of_armFor? {arms : List (Arm Term)} {ctor : String} {arm : Arm Term}
    (h : armFor? arms ctor = some arm) : arm ∈ arms :=
  List.mem_of_find?_eq_some h

/-- The arm taken by a case analysis in sight is in sight. -/
theorem Subst.Within.taken? {σ : Subst} {t u : Term} (hσ : σ.Within (Term.Over V))
    (ht : t.Over V) (h : Search.taken? σ t = some u) : u.Over V := by
  have hwalk := hσ.walk ht
  unfold Search.taken? at h
  split at h
  · next scrutinee arms hcases =>
    rw [hcases, Term.over_cases] at hwalk
    have hscrutinee := hσ.walk hwalk.1
    split at h
    · next ctor fields hctor =>
      rw [hctor, Term.over_app] at hscrutinee
      obtain ⟨arm, harm, hu⟩ := Option.bind_eq_some_iff.1 h
      have hmem := mem_of_armFor? (Option.filter_eq_some_iff.1 harm).1
      exact (hwalk.2 arm hmem).applyArm? hscrutinee hu
    · cases h
  · cases h

theorem steady_casesReduce : Steady T fuel F .casesReduce := by
  refine .of_gets casesReduce (fun _ _ _ _ => rfl) (fun _ _ _ _ => rfl) fun goal s _ => ?_
  cases goal with
  | subrel lesser greater => exact .noRule
  | related rel left right =>
    refine Gets.subst ?_
    split
    · exact .noRule
    · refine .pure ⟨.start, fun V hV => ?_⟩
      obtain ⟨hrel, hleft, hright⟩ := Goal.over_related.1 hV.goal
      have hside : ∀ {t : Term}, t.Over V → ((taken? s.subst t).getD t).Over V := by
        intro t ht
        cases h : taken? s.subst t with
        | none => exact ht
        | some u => exact hV.state.bindings.taken? ht h
      simp [hrel, hside hleft, hside hright]

/-! ## Constructor applications -/

/-- The relation of a field is in sight if the relator and its arguments are, and the fixed relations
of the scheme. -/
theorem FieldRel.over_of_relation? {whole rel : Term} {args : List Term} {field : FieldRel}
    (hwhole : whole.Over V) (hargs : ∀ x ∈ args, x.Over V)
    (hfixed : ∀ r : Term, field = .fixed r → r.Over V) (h : field.relation? whole args = some rel) :
    rel.Over V := by
  cases field with
  | arg i => exact hargs rel (List.mem_of_getElem? h)
  | fixed r =>
    cases h
    exact hfixed _ rfl
  | recursive =>
    cases h
    exact hwhole

/-- The pairs of fields that a scheme relates are in sight with the relations and the fields. -/
theorem over_of_mem_zip {whole x y rel : Term} {args xs ys : List Term} {pair : CasePair}
    {field : FieldRel} (hwhole : whole.Over V) (hargs : ∀ x ∈ args, x.Over V)
    (hfixed : ∀ r : Term, .fixed r ∈ pair.fields → r.Over V) (hxs : ∀ x ∈ xs, x.Over V)
    (hys : ∀ y ∈ ys, y.Over V) (hmem : (field, x, y) ∈ pair.fields.zip (xs.zip ys))
    (h : field.relation? whole args = some rel) : rel.Over V ∧ x.Over V ∧ y.Over V := by
  obtain ⟨hfield, hxy⟩ := List.of_mem_zip hmem
  obtain ⟨hx, hy⟩ := List.of_mem_zip hxy
  refine ⟨FieldRel.over_of_relation? hwhole hargs (fun r hr => ?_) h, hxs x hx, hys y hy⟩
  subst hr
  exact hfixed r hfield

theorem steady_relatorIntro : Steady T fuel F .relatorIntro := by
  refine .of_gets (relatorIntro T) (fun _ _ _ _ => rfl) (fun _ _ _ _ => rfl) fun goal s _ => ?_
  cases goal with
  | subrel lesser greater => exact .noRule
  | related rel left right =>
    refine Gets.subst ?_
    split
    · next head args hview =>
      refine (Gets.require .noRule).bind fun scheme t _ h => ?_
      obtain ⟨hscheme, rfl⟩ := h
      split
      · next c xs c' ys hl hr =>
        refine (Gets.require .noRule).bind fun pair u _ h => ?_
        obtain ⟨hpair, rfl⟩ := h
        refine fieldGoals_gets.bind fun goals v _ h => .pure ?_
        obtain ⟨rfl, hgoals⟩ := h
        refine ⟨.start, fun V hV g hg => ?_⟩
        obtain ⟨hrel, hleft, hright⟩ := Goal.over_related.1 hV.goal
        have hxs := hV.state.bindings.walk hleft
        have hys := hV.state.bindings.walk hright
        rw [hl, Term.over_app] at hxs
        rw [hr, Term.over_app] at hys
        have hargs : ∀ x ∈ args, x.Over V := fun x hx =>
          hV.view hrel hview (by simpa [View.parts] using hx)
        have hfixed := hV.theory.fixed head scheme hscheme pair (List.mem_of_find?_eq_some hpair)
        obtain ⟨i, hi, rfl⟩ := List.mem_iff_getElem.1 hg
        obtain ⟨hlen, hget⟩ := List.forall₂_iff_get.1 hgoals
        obtain ⟨r, hr, hgoal⟩ := hget i (hlen ▸ hi) hi
        rw [List.get_eq_getElem] at hgoal
        rw [hgoal, Goal.over_related]
        exact over_of_mem_zip (hV.state.bindings.resolve Term.stable_over hrel) hargs hfixed hxs hys
          (List.getElem_mem _) hr
      · exact .noRule
    · exact .noRule

/-! ## Splitting -/

/-- Only placeholders of the set occur in the case. -/
structure Case.Over (V : Nat → Prop) (c : Case) : Prop where
  hyps : ∀ h ∈ c.hyps, h.Over V
  goal : c.goal.Over V

section

variable {rel whole scrutinees : Term} {args : List Term} {flipped : Bool} {n m : Nat}
  {arms arms' : List (Arm Term)} {cases : List Case}

theorem over_of_mem_mintings {x : Term} {hint : String} {k : Nat}
    (h : x ∈ Term.mintings hint n k) : x.Over V := by
  obtain ⟨i, -, rfl⟩ := List.mem_map.1 h
  exact Term.over_minting hint i

theorem FieldsAssumed.over {fields : List (FieldRel × Term × Term)} {hyps : List Hypothesis}
    (h : FieldsAssumed whole args flipped n fields hyps)
    (hfields : ∀ field x y r, (field, x, y) ∈ fields → field.relation? whole args = some r →
      r.Over V ∧ x.Over V ∧ y.Over V) : ∀ h ∈ hyps, h.Over V := by
  induction h with
  | nil => simp
  | @cons n field x y r rest hyps hr hrest ih =>
    obtain ⟨hrel, hx, hy⟩ := hfields field x y r List.mem_cons_self hr
    refine List.forall_mem_cons.2 ⟨⟨hrel, ?_, ?_, by simp⟩, ih ?_⟩
    · cases flipped <;> assumption
    · cases flipped <;> assumption
    · exact fun field x y r hmem => hfields field x y r (List.mem_cons_of_mem _ hmem)

theorem SchemeCases.over {pairs : List CasePair}
    (h : SchemeCases rel whole args flipped arms arms' n pairs cases m) (hrel : rel.Over V)
    (hwhole : whole.Over V) (hargs : ∀ x ∈ args, x.Over V)
    (hfixed : ∀ pair ∈ pairs, ∀ r : Term, .fixed r ∈ pair.fields → r.Over V)
    (harms : ∀ arm ∈ arms, arm.body.Over V) (harms' : ∀ arm ∈ arms', arm.body.Over V) :
    ∀ c ∈ cases, c.Over V := by
  induction h with
  | nil => simp
  | cons hk harm harm' harity hfields hleft hright hrest ih =>
    rw [List.forall_mem_cons] at hfixed
    refine List.forall_mem_cons.2 ⟨⟨hfields.over fun field x y r hmem hr => ?_, ?_⟩, ih hfixed.2⟩
    · exact over_of_mem_zip hwhole hargs hfixed.1 (fun _ => over_of_mem_mintings)
        (fun _ => over_of_mem_mintings) hmem hr
    · refine Goal.over_related.2 ⟨hrel, ?_, ?_⟩
      · exact (harms _ (mem_of_armFor? harm)).applyArm? (fun _ => over_of_mem_mintings) hleft
      · exact (harms' _ (mem_of_armFor? harm')).applyArm? (fun _ => over_of_mem_mintings) hright

theorem AlignedCases.over (h : AlignedCases rel arms' n arms cases m) (hrel : rel.Over V)
    (harms : ∀ arm ∈ arms, arm.body.Over V) (harms' : ∀ arm ∈ arms', arm.body.Over V) :
    ∀ c ∈ cases, c.Over V := by
  induction h with
  | nil => simp
  | cons harm' harity hleft hright hrest ih =>
    rw [List.forall_mem_cons] at harms
    refine List.forall_mem_cons.2 ⟨⟨by simp, Goal.over_related.2 ⟨hrel, ?_, ?_⟩⟩, ih harms.2⟩
    · exact harms.1.applyArm? (fun _ => over_of_mem_mintings) hleft
    · exact (harms' _ (mem_of_armFor? harm')).applyArm? (fun _ => over_of_mem_mintings) hright

theorem PairCases.over {pairs : List (Arm Term × Arm Term)} (h : PairCases rel n pairs cases m)
    (hrel : rel.Over V) (hpairs : ∀ pair ∈ pairs, pair.1.body.Over V ∧ pair.2.body.Over V) :
    ∀ c ∈ cases, c.Over V := by
  induction h with
  | nil => simp
  | cons hleft hright hrest ih =>
    rw [List.forall_mem_cons] at hpairs
    refine List.forall_mem_cons.2 ⟨⟨by simp, Goal.over_related.2 ⟨hrel, ?_, ?_⟩⟩, ih hpairs.2⟩
    · exact hpairs.1.1.applyArm? (fun _ => over_of_mem_mintings) hleft
    · exact hpairs.1.2.applyArm? (fun _ => over_of_mem_mintings) hright
  | skip hnone hrest ih => exact ih (List.forall_mem_cons.1 hpairs).2

/-- The relation that a scheme belongs to is in sight, and so are its arguments. -/
theorem Encloses.schemeFor? {s t : State} {goal : Goal} {ps : List Proof} {scheme : Scheme}
    (hV : Encloses T s goal V ps t) (hscrutinees : scrutinees.Over V)
    (h : T.schemeFor? t.subst scrutinees = some (scheme, whole, args, flipped)) :
    whole.Over V ∧ (∀ x ∈ args, x.Over V) ∧
      ∀ pair ∈ scheme.cases, ∀ r : Term, .fixed r ∈ pair.fields → r.Over V := by
  unfold Theory.schemeFor? at h
  split at h
  · next head args' hview =>
    obtain ⟨scheme', hscheme, heq⟩ := Option.map_eq_some_iff.1 h
    cases heq
    refine ⟨hV.state.bindings.resolve Term.stable_over hscrutinees, fun x hx => ?_,
      hV.theory.fixed head scheme hscheme⟩
    exact hV.view hscrutinees hview hx
  · next inner hview =>
    have hinner : inner.Over V := hV.view hscrutinees hview (by simp [View.parts])
    split at h
    · next head args' hview' =>
      obtain ⟨scheme', hscheme, heq⟩ := Option.map_eq_some_iff.1 h
      cases heq
      refine ⟨hV.state.bindings.resolve Term.stable_over hinner, fun x hx => ?_,
        hV.theory.fixed head scheme hscheme⟩
      exact hV.view hinner hview' hx
    · cases h
  · cases h

/-- Splitting what is in sight gives cases that are. -/
theorem Encloses.split {s t : State} {goal : Goal} {ps : List Proof}
    (hV : Encloses T s goal V ps t)
    (h : Splits T t.subst rel scrutinees arms arms' n cases m) (hrel : rel.Over V)
    (hscrutinees : scrutinees.Over V) (harms : ∀ arm ∈ arms, arm.body.Over V)
    (harms' : ∀ arm ∈ arms', arm.body.Over V) : ∀ c ∈ cases, c.Over V := by
  cases h with
  | aligned _ hcases => exact hcases.over hrel harms harms'
  | scheme hscheme hcases =>
    obtain ⟨hwhole, hargs, hfixed⟩ := hV.schemeFor? hscrutinees hscheme
    exact hcases.over hrel hwhole hargs hfixed harms harms'
  | pairs _ _ hcases =>
    refine hcases.over hrel fun pair hpair => ?_
    simp only [allPairs, List.mem_flatMap, List.mem_map] at hpair
    obtain ⟨arm, harm, arm', harm', rfl⟩ := hpair
    exact ⟨harms arm harm, harms' arm' harm'⟩

end

/-- Cases are proved in order, each under its own hypotheses. -/
theorem proveCases_follows {w : Place} {prove prove' : Prover} {s t : State} {goal : Goal}
    {ps : List Proof} {S : ρ → State → Prop} {emit emit' : Reduction → Search ρ}
    {cases : List Case} (hprove : Paired T fuel F w prove prove') (hs : s.place = w)
    (hacyclic : s.subst.Acyclic) (hcourse : Course T F s goal ps t)
    (hcases : ∀ V, Encloses T s goal V ps t → ∀ c ∈ cases, c.Over V)
    (hemit : ∀ r u, Emitted T F s goal r u → Follows T fuel (emit r) (emit' r) u u.Grown S) :
    Follows T fuel (proveCases prove emit cases ps) (proveCases prove' emit' cases ps) t t.Grown
      S := by
  induction cases generalizing t ps with
  | nil => exact hemit _ t ⟨hcourse, by simp⟩
  | cons c rest ih =>
    refine hprove.proveAssuming hs hacyclic hcourse
      (fun V hV => (hcases V hV c List.mem_cons_self).hyps)
      (fun V hV => (hcases V hV c List.mem_cons_self).goal) fun p u hu hnext => ih hnext ?_
    intro V hV c hc
    have hback := hV.of_grown (hnext.grown.acyclic hacyclic) hu (List.prefix_append ps [p])
    exact hcases V hback c (List.mem_cons_of_mem _ hc)

theorem steady_destruct : Steady T fuel F .destruct := by
  intro w prove prove' hprove ρ name goal emit emit' s S hs hacyclic hemit
  cases goal with
  | subrel lesser greater => exact .noRule
  | related rel left right =>
    refine Follows.subst ?_
    cases hl : s.subst.walk left with
    | cases l arms =>
      cases hr : s.subst.walk right with
      | cases r arms' =>
        refine freshVar_gets.follows fun v t₁ _ h₁ => ?_
        obtain ⟨hk₁, -, rfl⟩ := h₁
        -- the bindings at the start see the scrutinees and the arms
        have hsides : ∀ V ps t, s.Grown t → t.subst.Acyclic →
            Encloses T s (.related rel left right) V ps t →
            (Term.cases l arms).Over V ∧ (Term.cases r arms').Over V := by
          intro V ps t ht hacyclic' hV
          obtain ⟨-, hleft, hright⟩ := Goal.over_related.1 hV.goal
          have hbindings := (hV.state.of_grown hacyclic' ht).bindings
          rw [← hl, ← hr]
          exact ⟨hbindings.walk hleft, hbindings.walk hright⟩
        have hstart : Course T F s (.related rel left right) [] t₁ := Course.start.keep hk₁
        refine hprove.proves hs hacyclic hstart (fun V hV => ?_)
          fun p t₂ h₂ hnext => ?_
        · obtain ⟨hleft, hright⟩ := hsides V [] t₁ hk₁.grown (hk₁.grown.acyclic hacyclic) hV
          rw [Term.over_cases] at hleft hright
          exact Goal.over_related.2 ⟨Term.over_var.2 (hV.later _ le_rfl), hleft.1, hright.1⟩
        · refine split_gets.follows fun cases t₃ _ h₃ => ?_
          obtain ⟨hk₃, hsplit⟩ := h₃
          refine proveCases_follows hprove hs hacyclic (hnext.keep hk₃) (fun V hV => ?_) hemit
          have hV₂ := hV.of_kept hk₃
          obtain ⟨hleft, hright⟩ := hsides V _ t₂ hnext.grown (hnext.grown.acyclic hacyclic) hV₂
          rw [Term.over_cases] at hleft hright
          exact hV₂.split hsplit (Goal.over_related.1 hV.goal).1
            (Term.over_var.2 (hV.later _ le_rfl)) hleft.2 hright.2
      | _ => exact .noRule
    | _ => exact .noRule

end Monotonicity
