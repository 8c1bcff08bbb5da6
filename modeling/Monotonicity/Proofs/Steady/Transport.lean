import Monotonicity.Proofs.Steady.Candidate
import Monotonicity.Proofs.Steady.CaseSplit
import Monotonicity.Query.Transport

/-!
# Transport is steady

A transport follows a course too. What is given to it are the term and the value of the computation;
they take the place of the goal. A transport that puts an obligation off asks for no steps first, so
that it is compared only with a transport that has the same steps.
-/

namespace Monotonicity

open Search

variable {T : Theory} {ρ : Type} {F : Handover} {w : Place} {prove prove' : Prover}
  {s t u : State} {goal g : Goal} {ps : List Proof} {S : ρ → State → Prop} {a b : Term}

theorem Search.Gets.blocked {α : Type} {o : Obstacle} {Q : α → State → Prop} :
    (blocked o : Search α).Gets s Q := State.Grown.refl s

/-! ## The edge -/

theorem renamed_gets {f : Fact} :
    (renamed f).Gets s fun f' t => s.Kept t ∧ ∃ offset, s.ledger.nextVar ≤ offset ∧
      f' = f.rename offset :=
  reserve_gets.bind fun offset _ _ h => .pure ⟨h.1, offset, h.2.2.ge, rfl⟩

theorem bridgeEdge_follows {fuel : Nat} (hprove : Paired T fuel F w prove prove')
    (hs : s.place = w) (hacyclic : s.subst.Acyclic) {k k' : Option Proof → Search ρ}
    (hcourse : Course T F s goal ps t) (ha : Seen T s goal ps t a) (hb : Seen T s goal ps t b)
    (hk : ∀ p u, t.Grown u → Course T F s goal (ps ++ p.toList) u →
      Follows T fuel (k p) (k' p) u u.Grown S) :
    Follows T fuel (bridgeEdge prove a b k) (bridgeEdge prove' a b k') t t.Grown S := by
  refine (hcourse.unify_gets ha hb).follows fun ok u hu hnext => ?_
  cases ok with
  | true => exact hk none u hu (by simpa using hnext)
  | false =>
    rw [if_neg Bool.false_ne_true, if_neg Bool.false_ne_true]
    refine bridging_follows (fun cross cross' hcross v hv => ?_) fun crossed why v => ?_
    · refine hprove.proves hs hacyclic (hnext.keep hv) (fun V hV => ?_) fun p v' hv' hnext' => ?_
      · have hback := hV.of_grown ((hnext.keep hv).grown.acyclic hacyclic) (hu.trans hv.grown)
          (List.prefix_refl _)
        exact Goal.over_subrel.2 ⟨ha V hback, hb V hback⟩
      · refine hcross p v' fun v'' hv'' => hk (some p) v'' ?_ (hnext'.keep hv'')
        exact ((hu.trans hv.grown).trans hv').trans hv''.grown
    · split
      · exact ⟨why, rfl⟩
      · exact ⟨_, rfl⟩

/-! ## The plan -/

theorem fieldObligations_gets {whole : Term} {args : List Term}
    {fields : List (FieldRel × Term × Term)} :
    (fieldObligations whole args fields).Gets s fun goals t => t = s ∧
      ∀ g ∈ goals, ∃ field x y r, (field, x, y) ∈ fields ∧ field.relation? whole args = some r ∧
        g = .related r x y := by
  induction fields with
  | nil => exact .pure ⟨rfl, by simp⟩
  | cons f rest ih =>
    obtain ⟨field, x, y⟩ := f
    refine (Gets.require .blocked).bind fun r t _ h => ?_
    obtain ⟨hr, rfl⟩ := h
    refine ih.bind fun goals u _ h => .pure ⟨h.1, List.forall_mem_cons.2 ⟨?_, fun g hg => ?_⟩⟩
    · exact ⟨field, x, y, r, List.mem_cons_self, hr, rfl⟩
    · obtain ⟨field', x', y', r', hmem, hr', rfl⟩ := h.2 g hg
      exact ⟨field', x', y', r', List.mem_cons_of_mem _ hmem, hr', rfl⟩

theorem Course.derivedSide_gets (hacyclic : s.subst.Acyclic) {term left right : Term}
    (hcourse : Course T F s goal ps t) (hterm : Seen T s goal ps t term)
    (hleft : Seen T s goal ps t left) (hright : Seen T s goal ps t right) :
    (derivedSide term left right).Gets t fun _ u => Course T F s goal ps u := by
  refine (hcourse.unify_gets hterm hright).bind fun ok u hu hnext => ?_
  cases ok with
  | true => exact .pure hnext
  | false =>
    have hacyclic' := hnext.grown.acyclic hacyclic
    refine (hnext.unify_gets (hterm.later hacyclic' hu (List.prefix_refl _))
      (hleft.later hacyclic' hu (List.prefix_refl _))).bind fun ok v _ hv => ?_
    cases ok with
    | true => exact .pure hv
    | false => exact .blocked

theorem mem_of_pick {scheme : Scheme} {ctor : String} {side : Side} {test : CasePair → Bool}
    {pair : CasePair}
    (h : (side.pick (scheme.forRight? ctor) (scheme.forLeft? ctor)).filter test = some pair) :
    pair ∈ scheme.cases := by
  have hpair := (Option.filter_eq_some_iff.1 h).1
  cases side with
  | left => exact List.mem_of_find?_eq_some hpair
  | right => exact List.mem_of_find?_eq_some hpair

/-- The fields of the two values, the unknown ones on the derived side. -/
theorem over_of_mem_pick {V : Nat → Prop} {whole x y rel : Term} {args unknown known : List Term}
    {pair : CasePair} {field : FieldRel} {derived : Side} (hwhole : whole.Over V)
    (hargs : ∀ x ∈ args, x.Over V) (hfixed : ∀ r : Term, .fixed r ∈ pair.fields → r.Over V)
    (hunknown : ∀ x ∈ unknown, x.Over V) (hknown : ∀ x ∈ known, x.Over V)
    (hmem : (field, x, y) ∈
      pair.fields.zip (derived.pick (unknown.zip known) (known.zip unknown)))
    (h : field.relation? whole args = some rel) : (Goal.related rel x y).Over V := by
  rw [Goal.over_related]
  cases derived with
  | left => exact over_of_mem_zip hwhole hargs hfixed hunknown hknown hmem h
  | right => exact over_of_mem_zip hwhole hargs hfixed hknown hunknown hmem h

/-- The obligations on the fields of two values are in sight if the relation of the results and the
known value were at some state before. The unknown fields are new placeholders. -/
theorem Course.fieldObligations_gets (hacyclic : s.subst.Acyclic) {relation value : Term}
    {args known unknown : List Term} {head ctor : String} {scheme : Scheme} {pair : CasePair}
    {derived : Side} (hcourse : Course T F s goal ps u) (hu : t.Grown u)
    (hrel : Seen T s goal ps t relation) (hvalue : Seen T s goal ps t value)
    (hview : t.subst.view relation = .named head args)
    (hwalk : t.subst.walk value = .app ctor known)
    (hscheme : T.registry.schemes.get? head = some scheme) (hpair : pair ∈ scheme.cases)
    (hnew : ∀ V, Encloses T s goal V ps u → ∀ x ∈ unknown, x.Over V) :
    (fieldObligations relation args (pair.fields.zip
      (derived.pick (unknown.zip known) (known.zip unknown)))).Gets u fun goals v =>
        Course T F s goal ps v ∧ ∀ V, Encloses T s goal V ps v → ∀ g ∈ goals, g.Over V := by
  refine Monotonicity.fieldObligations_gets.mono fun goals v _ h => ?_
  obtain ⟨rfl, hgoals⟩ := h
  refine ⟨hcourse, fun V hV g hg => ?_⟩
  obtain ⟨field, x, y, r, hmem, hr, rfl⟩ := hgoals g hg
  have hback := hV.of_grown (hcourse.grown.acyclic hacyclic) hu (List.prefix_refl _)
  have hknown := hback.state.bindings.walk (hvalue V hback)
  rw [hwalk, Term.over_app] at hknown
  exact over_of_mem_pick (hrel V hback) (fun x hx => hback.view (hrel V hback) hview hx)
    (hV.theory.fixed head scheme hscheme pair hpair) (hnew V hV) hknown hmem hr

/-- The obligations of a plan are in sight. -/
theorem Course.plan_gets (hacyclic : s.subst.Acyclic) {lifted edge : Fact} {c : Computation}
    {result : Subst → Option Term} (hcourse : Course T F s goal ps t)
    (hgiven : ∀ x ∈ [lifted.left, lifted.right, edge.left, edge.right, c.term, c.value],
      Seen T s goal ps t x)
    (hresult : ∀ V u, t.Grown u → Encloses T s goal V ps u → u.subst.Acyclic →
      ∀ r, result u.subst = some r → r.Over V) :
    (plan T lifted edge result c).Gets t fun p u => Course T F s goal ps u ∧
      ∀ V, Encloses T s goal V ps u → ∀ g ∈ p.obligations, g.Over V := by
  simp only [List.forall_mem_cons] at hgiven
  obtain ⟨hll, hlr, hel, her, hterm, hvalue, -⟩ := hgiven
  refine Gets.subst ((Gets.require .blocked).bind fun left t₁ _ h₁ => ?_)
  obtain ⟨hleft, rfl⟩ := h₁
  refine (Gets.require .blocked).bind fun right t₂ _ h₂ => ?_
  obtain ⟨hright, rfl⟩ := h₂
  have hseen : Seen T s goal ps t₂ left := fun V hV =>
    (hV.state.bindings.walk (hll V hV)).extend? (by simpa using hel V hV) hleft
  have hseen' : Seen T s goal ps t₂ right := fun V hV =>
    (hV.state.bindings.walk (hlr V hV)).extend? (by simpa using her V hV) hright
  refine (hcourse.derivedSide_gets hacyclic hterm hseen hseen').bind fun derived t₃ h₃ hnext => ?_
  have hacyclic₃ := hnext.grown.acyclic hacyclic
  refine Gets.subst ((Gets.require .blocked).bind fun relation t₄ _ h₄ => ?_)
  obtain ⟨hrelation, rfl⟩ := h₄
  have hrel : Seen T s goal ps t₄ relation := fun V hV =>
    hresult V t₄ h₃ hV hacyclic₃ relation hrelation
  refine Gets.subst ?_
  split
  · next head args hview =>
    refine (Gets.require .blocked).bind fun scheme t₅ _ h₅ => ?_
    obtain ⟨hscheme, rfl⟩ := h₅
    refine Gets.subst ?_
    split
    · next ctor known hwalk =>
      refine (Gets.require .blocked).bind fun pair t₆ _ h₆ => ?_
      obtain ⟨hpair, rfl⟩ := h₆
      refine freshVars_gets.bind fun unknown t₇ _ h₇ => ?_
      obtain ⟨hk₇, -, -, hnew⟩ := h₇
      have hunknown : ∀ V u, Encloses T s goal V ps u → ∀ x ∈ unknown, x.Over V :=
        fun V u hV => hV.of_new hnext.grown hnew
      have hobligations : ∀ u, t₆.Grown u → Course T F s goal ps u →
          (fieldObligations relation args (pair.fields.zip
            (derived.pick (unknown.zip known) (known.zip unknown)))).Gets u fun goals v =>
              Course T F s goal ps v ∧ ∀ V, Encloses T s goal V ps v → ∀ g ∈ goals, g.Over V :=
        fun u hu hcourse' => hcourse'.fieldObligations_gets hacyclic hu hrel
          (hvalue.later hacyclic₃ h₃ (List.prefix_refl _)) hview hwalk hscheme (mem_of_pick hpair)
          fun V => hunknown V u
      refine Gets.subst ?_
      dsimp only
      split
      · next computed hcomputed =>
        refine ((hnext.keep hk₇).unify_gets (fun V hV => ?_) fun V hV => ?_).bind
          fun ok u hu hnext' => ?_
        · exact Term.over_app.2 (hunknown V _ hV)
        · exact hV.theory.computed _ _ hcomputed
        · cases ok with
          | true =>
            exact (hobligations u (hk₇.grown.trans hu) hnext').bind fun goals v _ h => .pure h
          | false => exact .blocked
      · exact (hobligations t₇ hk₇.grown (hnext.keep hk₇)).bind fun goals v _ h => .pure h
    · exact .blocked
  · exact .blocked

/-! ## The obligations -/

/-- Obligations are proved or put off, one after the other. -/
theorem discharge_follows (hprove : Paired T T.limits.fuel F w prove prove') (hs : s.place = w)
    (hacyclic : s.subst.Acyclic) {k k' : List Proof → Search ρ} {goals : List Goal}
    (hcourse : Course T F s goal ps t)
    (hgoals : ∀ V, Encloses T s goal V ps t → ∀ g ∈ goals, g.Over V)
    (hk : ∀ qs u, Course T F s goal qs u →
      Follows T T.limits.fuel (k qs) (k' qs) u u.Grown S) :
    Follows T T.limits.fuel (discharge prove k goals ps) (discharge prove' k' goals ps) t
      t.Grown S := by
  induction goals generalizing t ps with
  | nil => exact hk ps t hcourse
  | cons g rest ih =>
    have hrest : ∀ p u, t.Grown u → Course T F s goal (ps ++ [p]) u →
        Follows T T.limits.fuel (discharge prove k rest (ps ++ [p]))
          (discharge prove' k' rest (ps ++ [p])) u u.Grown S := by
      refine fun p u hu hnext => ih hnext fun V hV g hg => ?_
      have hback := hV.of_grown (hnext.grown.acyclic hacyclic) hu (List.prefix_append ps [p])
      exact hgoals V hback g (List.mem_cons_of_mem _ hg)
    have hproved := hprove.proves hs hacyclic hcourse
      (fun V hV => hgoals V hV g List.mem_cons_self) hrest
    refine hproved.attempt.recover (fun why u _ hcut => (Theory.not_cut_self hcut).elim)
      fun why u hu => ?_
    -- an obligation without a proof is put off in the state in which it was taken up
    refine Follows.ite (fun _ => Follows.fail.from hu.grown) fun _ => Follows.from ?_ hu.grown
    refine (hcourse.keep hu).defer_gets.follows fun p v hv hnext => ?_
    exact hrest p v (hu.grown.trans hv) hnext

/-- From the edge to the end, for facts in sight. The relation of the results has to be in sight
wherever it is asked for. -/
theorem carry_follows (hprove : Paired T T.limits.fuel F w prove prove') (hs : s.place = w)
    (hacyclic : s.subst.Acyclic) {bound : Nat} {lifted edge : Fact} {expected : Term}
    {result : Subst → Option Term} {c : Computation} {S : Transported → State → Prop}
    (hcourse : Course T F s goal ps t)
    (hedge : Seen T s goal ps t edge.rel ∧ Seen T s goal ps t expected)
    (hgiven : ∀ x ∈ [lifted.left, lifted.right, edge.left, edge.right, c.term, c.value],
      Seen T s goal ps t x)
    (hresult : ∀ qs V u, t.Grown u → Encloses T s goal V qs u → u.subst.Acyclic →
      ∀ r, result u.subst = some r → r.Over V)
    (hS : ∀ p qs u, Course T F s goal qs u → (arrive bound p qs).Yields u S) :
    Follows T T.limits.fuel
      (bridgeEdge prove edge.rel expected fun bridged => do
        let p ← plan T lifted edge result c
        discharge prove (arrive bound p) p.obligations (ps ++ bridged.toList))
      (bridgeEdge prove' edge.rel expected fun bridged => do
        let p ← plan T lifted edge result c
        discharge prove' (arrive bound p) p.obligations (ps ++ bridged.toList)) t t.Grown S := by
  refine bridgeEdge_follows hprove hs hacyclic hcourse hedge.1 hedge.2 fun bridged u hu hnext => ?_
  have hplan : (plan T lifted edge result c).Gets u fun p v =>
      Course T F s goal (ps ++ bridged.toList) v ∧
        ∀ V, Encloses T s goal V (ps ++ bridged.toList) v → ∀ g ∈ p.obligations, g.Over V :=
    hnext.plan_gets hacyclic
      (fun x hx => (hgiven x hx).later (hnext.grown.acyclic hacyclic) hu (List.prefix_append ..))
      fun V v hv => hresult _ V v (hu.trans hv)
  refine hplan.follows fun p v _ hp => ?_
  refine discharge_follows hprove hs hacyclic hp.1 hp.2 fun qs u hu => ?_
  exact Follows.self (hS p qs u hu)

theorem transport_follows (hprove : Paired T T.limits.fuel F w prove prove') (hs : s.place = w)
    (hacyclic : s.subst.Acyclic) {bound liftedId edgeId : Nat} {lifted edge : Fact}
    {c : Computation} {S : Transported → State → Prop}
    (hS : ∀ p ps t, Course T F s (.subrel c.term c.value) ps t →
      (arrive bound p ps).Yields t S) :
    Follows T T.limits.fuel (transport T prove bound liftedId edgeId lifted edge c)
      (transport T prove' bound liftedId edgeId lifted edge c) s s.Grown S := by
  refine renamed_gets.follows fun lifted' t₁ _ h₁ => renamed_gets.follows fun edge' t₂ _ h₂ => ?_
  obtain ⟨hk₁, offset₁, hoffset₁, rfl⟩ := h₁
  obtain ⟨hk₂, offset₂, hoffset₂, rfl⟩ := h₂
  have hlifted : ∀ (x : Term) ps t, Seen T s (.subrel c.term c.value) ps t (x.rename offset₁) :=
    fun x ps t V hV => hV.rename x hoffset₁
  have hedge : ∀ (x : Term) ps t, Seen T s (.subrel c.term c.value) ps t (x.rename offset₂) :=
    fun x ps t V hV => hV.rename x (hk₁.ledger.nextVar.trans hoffset₂)
  have hstart : Course T F s (.subrel c.term c.value) [] t₂ := Course.start.keep (hk₁.trans hk₂)
  have hfacts : Course T F s (.subrel c.term c.value)
      [.fact liftedId (lifted.witness.rename offset₁), .fact edgeId (edge.witness.rename offset₂)]
      t₂ := by
    refine (hstart.leaf (.fact liftedId _) rfl ?_).leaf (.fact edgeId _) rfl ?_
    · rintro w ⟨⟩
      exact hlifted lifted.witness _ _
    · rintro w ⟨⟩
      exact hedge edge.witness _ _
  have hgiven : ∀ x ∈ [(lifted.rename offset₁).left, (lifted.rename offset₁).right,
      (edge.rename offset₂).left, (edge.rename offset₂).right, c.term, c.value],
      ∀ ps, Seen T s (.subrel c.term c.value) ps t₂ x := by
    simp only [List.forall_mem_cons, List.not_mem_nil, false_implies, implies_true, and_true]
    exact ⟨fun _ => hlifted _ _ _, fun _ => hlifted _ _ _, fun _ => hedge _ _ _,
      fun _ => hedge _ _ _, fun _ V hV => (Goal.over_subrel.1 hV.goal).1,
      fun _ V hV => (Goal.over_subrel.1 hV.goal).2⟩
  -- what was seen of the function's relation stays in sight
  have hview : ∀ {v : View} {x : Term}, t₂.subst.view (lifted.rename offset₁).rel = v →
      x ∈ v.parts → ∀ ps V u, t₂.Grown u → u.subst.Acyclic →
        Encloses T s (.subrel c.term c.value) V ps u → x.Over V := by
    intro v x hv hx ps V u hu hacyclic' hV
    have hback := hV.of_grown hacyclic' hu List.nil_prefix
    exact hback.view (hlifted lifted.rel _ _ V hback) hv hx
  have hacyclic₂ := hstart.grown.acyclic hacyclic
  refine Follows.subst ?_
  cases h : t₂.subst.view (lifted.rename offset₁).rel with
  | dependent e family =>
    refine carry_follows hprove hs hacyclic hfacts ⟨hedge edge.rel _ _, fun V hV => ?_⟩
      (fun x hx => hgiven x hx _) (fun qs V u hu hV hacyclic' r hr => ?_) hS
    · exact hview h (by simp [View.parts]) _ V t₂ (.refl t₂) hacyclic₂ hV
    · have hfamily : family.Over V := hview h (by simp [View.parts]) qs V u hu hacyclic' hV
      exact hV.state.bindings.family? hfamily (hedge _ _ _ V hV) (hedge _ _ _ V hV)
        (hedge _ _ _ V hV) hr
  | arrow e cod =>
    refine carry_follows hprove hs hacyclic hfacts ⟨hedge edge.rel _ _, fun V hV => ?_⟩
      (fun x hx => hgiven x hx _) (fun qs V u hu hV hacyclic' r hr => ?_) hS
    · exact hview h (by simp [View.parts]) _ V t₂ (.refl t₂) hacyclic₂ hV
    · cases hr
      exact hview h (by simp [View.parts]) qs V u hu hacyclic' hV
  | _ => exact .fail

end Monotonicity
