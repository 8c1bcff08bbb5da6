import Monotonicity.Proofs.Apart.Search
import Monotonicity.Proofs.Steady.CaseSplit

/-!
# Rules keep placeholders apart

The goals that a rule raises and the hypotheses that it puts into scope are made of parts of its
goal, of new constants and of new placeholders. What is registered is renamed to a block that was
set aside, but for the relations that schemes fix, which are used as they stand.
-/

namespace Monotonicity

open Search

variable {T : Theory} {ρ : Type} {V W : Nat → Prop} {s t : State} {goal : Goal}

/-! ## Renaming -/

/-- Only placeholders of the set occur in the inclusion and its name. -/
structure Inclusion.Over (V : Nat → Prop) (f : Inclusion) : Prop where
  lesser : f.lesser.Over V
  greater : f.greater.Over V
  witness : f.witness.Over V

/-- Only placeholders of the set occur in the fact and its name. -/
structure Fact.Over (V : Nat → Prop) (f : Fact) : Prop where
  rel : f.rel.Over V
  left : f.left.Over V
  right : f.right.Over V
  witness : f.witness.Over V

/-- Every use of a fact or an inclusion sets enough placeholders aside for it. -/
structure Registry.Bounded (r : Registry) : Prop where
  facts : ∀ f ∈ r.facts, f.Over (· < f.schematic)
  inclusions : ∀ f ∈ r.inclusions, f.Over (· < f.schematic)

/-- The placeholders of a block. -/
def Block (first count : Nat) (i : Nat) : Prop := first ≤ i ∧ i < first + count

theorem Term.Over.rename {u : Term} {n : Nat} (h : u.Over (· < n)) (first : Nat) :
    (u.rename first).Over (Block first n) := by
  rw [Term.rename_eq_subst, Term.over_subst]
  intro i hi
  have hlt : i < n := h i hi
  rw [Term.over_var, Block]
  omega

theorem Fact.Over.rename {f : Fact} {n : Nat} (h : f.Over (· < n)) (first : Nat) :
    (f.rename first).Over (Block first n) :=
  ⟨h.rel.rename first, h.left.rename first, h.right.rename first, h.witness.rename first⟩

theorem Fact.Over.mono {f : Fact} (h : f.Over V) (hVW : ∀ i, V i → W i) : f.Over W :=
  ⟨h.rel.mono hVW, h.left.mono hVW, h.right.mono hVW, h.witness.mono hVW⟩

/-- A block that has been set aside has been given out. -/
theorem Block.used {first n i : Nat} (h : Block first n i) (ht : first + n ≤ t.ledger.nextVar) :
    t.used i :=
  Nat.lt_of_lt_of_le h.2 ht

theorem Case.Over.mono {c : Case} (h : c.Over V) (hVW : ∀ i, V i → W i) : c.Over W :=
  ⟨fun x hx => (h.hyps x hx).mono hVW, h.goal.mono hVW⟩

/-! ## Methods -/

/-- Only placeholders of the set occur in what is left to be proved, and in the names of the proofs
found. -/
structure Reduction.Over (V : Nat → Prop) (r : Reduction) : Prop where
  premises : ∀ p ∈ r.premises, p.Over V
  subgoals : ∀ g ∈ r.subgoals, g.Over V

/-- The method keeps placeholders apart if the provers do that it is given. -/
def Method.KeepsApart (T : Theory) (method : Method) : Prop :=
  ∀ ⦃prove prove' : Prover⦄, prove.KeepsApart prove' →
    ∀ ⦃ρ : Type⦄ ⦃name : String⦄ ⦃goal : Goal⦄ ⦃emit emit' : Reduction → Search ρ⦄ ⦃s : State⦄,
      s.Apart → goal.Over s.used →
      (∀ r t, s.Leads t → r.Over t.used → (emit r).KeepsApart (emit' r) t) →
      (method.run T prove name goal emit).KeepsApart (method.run T prove' name goal emit') s

namespace Method.KeepsApart

/-- A method that returns its reduction. -/
theorem of_reduction {method : Method} (reduce : Goal → Search Reduction)
    (hrun : ∀ {ρ : Type} (prove : Prover) (name : String) (goal : Goal)
      (emit : Reduction → Search ρ), method.run T prove name goal emit = reduce goal >>= emit)
    (h : ∀ goal s, s.Apart → goal.Over s.used →
      (reduce goal).KeepsApart (reduce goal) s fun r t => r.Over t.used) :
    method.KeepsApart T := by
  intro prove prove' _ ρ name goal emit emit' s hs hgoal hemit
  rw [hrun, hrun]
  exact (h goal s hs hgoal).bind hemit

theorem top : Method.top.KeepsApart T := by
  intro prove prove' _ ρ name goal emit emit' s hs _ hemit
  exact hemit _ s hs.leads ⟨by simp, by simp⟩

/-! ## Introduction and equality -/

theorem eqRefl : Method.eqRefl.KeepsApart T := by
  refine of_reduction Search.eqRefl (fun _ _ _ _ => rfl) fun goal s hs hgoal => ?_
  cases goal with
  | subrel lesser greater => exact .noRule hs
  | related rel left right =>
    exact .subst (.ite (fun _ => .pure hs ⟨by simp, by simp⟩) fun _ => .noRule hs)

theorem flipIntro : Method.flipIntro.KeepsApart T := by
  refine of_reduction Search.flipIntro (fun _ _ _ _ => rfl) fun goal s hs hgoal => ?_
  cases goal with
  | subrel lesser greater => exact .noRule hs
  | related rel left right =>
    obtain ⟨hrel, hleft, hright⟩ := Goal.over_related.1 hgoal
    refine .subst ?_
    cases hview : s.subst.view rel with
    | flip inner =>
      have hinner := hs.view hrel hview (u := inner) (by simp [View.parts])
      exact .pure hs ⟨by simp, by simp [hinner, hleft, hright]⟩
    | _ => exact .noRule hs

theorem applied {left right x y : Term} (hs : s.Apart) (hleft : left.Over s.used)
    (hright : right.Over s.used) (hx : x.Over s.used) (hy : y.Over s.used) :
    (applied goal left right x y).KeepsApart (Search.applied goal left right x y) s
      fun sides t => sides.1.Over t.used ∧ sides.2.Over t.used := by
  refine .subst ?_
  cases hfx : (s.subst.walk left).extend? [x] with
  | none => exact .noRule hs
  | some fx =>
    cases hgy : (s.subst.walk right).extend? [y] with
    | none => exact .noRule hs
    | some gy =>
      refine .pure hs ⟨(hs.walk hleft).extend? (by simpa using hx) hfx, ?_⟩
      exact (hs.walk hright).extend? (by simpa using hy) hgy

theorem arrowIntro : Method.arrowIntro.KeepsApart T := by
  intro prove prove' hprove ρ name goal emit emit' s hs hgoal hemit
  cases goal with
  | subrel lesser greater => exact .noRule hs
  | related rel left right =>
    obtain ⟨hrel, hleft, hright⟩ := Goal.over_related.1 hgoal
    refine .subst ?_
    cases hview : s.subst.view rel with
    | arrow dom cod =>
      have hdom := hs.view hrel hview (u := dom) (by simp [View.parts])
      have hcod := hs.view hrel hview (u := cod) (by simp [View.parts])
      refine (Search.KeepsApart.freshConst hs).bind fun x t₁ h₁ hx =>
        (Search.KeepsApart.freshConst h₁.apart).bind fun y t₂ h₂ hy => ?_
      have hst := h₁.trans h₂
      refine (applied hst.apart (hleft.mono hst.used) (hright.mono hst.used) (hx _) (hy _)).bind
        fun sides t₃ h₃ hsides => (Search.KeepsApart.freshConst h₃.apart).bind fun h t₄ h₄ hh => ?_
      have hst' := (hst.trans h₃).trans h₄
      refine hprove.proveAssuming h₄.apart ?_ ?_ fun p u hu hp => ?_
      · simpa using ⟨hdom.mono hst'.used, hx _, hy _, hh _⟩
      · exact Goal.over_related.2
          ⟨hcod.mono hst'.used, hsides.1.mono h₄.used, hsides.2.mono h₄.used⟩
      · exact hemit _ u (hst'.trans hu) ⟨by simpa using hp, by simp⟩
    | _ => exact .noRule hs

theorem dependentIntro : Method.dependentIntro.KeepsApart T := by
  intro prove prove' hprove ρ name goal emit emit' s hs hgoal hemit
  cases goal with
  | subrel lesser greater => exact .noRule hs
  | related rel left right =>
    obtain ⟨hrel, hleft, hright⟩ := Goal.over_related.1 hgoal
    refine .subst ?_
    cases hview : s.subst.view rel with
    | dependent edge family =>
      have hedge := hs.view hrel hview (u := edge) (by simp [View.parts])
      have hfamily := hs.view hrel hview (u := family) (by simp [View.parts])
      refine (Search.KeepsApart.freshConst hs).bind fun v t₁ h₁ hv =>
        (Search.KeepsApart.freshConst h₁.apart).bind fun w t₂ h₂ hw =>
          (Search.KeepsApart.freshConst h₂.apart).bind fun e t₃ h₃ he => ?_
      have hst := (h₁.trans h₂).trans h₃
      refine (applied hst.apart (hleft.mono hst.used) (hright.mono hst.used) (hv _) (hw _)).bind
        fun sides t₄ h₄ hsides => .subst (.require (.noRule h₄.apart) fun inst hinst => ?_)
      have hst' := hst.trans h₄
      refine hprove.proveAssuming h₄.apart ?_ ?_ fun p u hu hp => ?_
      · simpa using ⟨hedge.mono hst'.used, hv _, hw _, he _⟩
      · refine Goal.over_related.2 ⟨?_, hsides.1, hsides.2⟩
        exact h₄.apart.only.subst.within.family? (hfamily.mono hst'.used) (hv _) (hw _) (he _) hinst
      · exact hemit _ u (hst'.trans hu) ⟨by simpa using hp, by simp⟩
    | _ => exact .noRule hs

theorem eqCongruence : Method.eqCongruence.KeepsApart T := by
  refine of_reduction Search.eqCongruence (fun _ _ _ _ => rfl) fun goal s hs hgoal => ?_
  cases goal with
  | subrel lesser greater => exact .noRule hs
  | related rel left right =>
    obtain ⟨hrel, hleft, hright⟩ := Goal.over_related.1 hgoal
    have hxs := hs.walk hleft
    have hys := hs.walk hright
    refine .subst ?_
    cases hl : s.subst.walk left with
    | app f xs =>
      cases hr : s.subst.walk right with
      | app g ys =>
        rw [hl, Term.over_app] at hxs
        rw [hr, Term.over_app] at hys
        refine .ite (fun _ => .pure hs ⟨by simp, fun g hg => ?_⟩) fun _ => .noRule hs
        obtain ⟨⟨x, y⟩, hxy, rfl⟩ := List.mem_map.1 hg
        obtain ⟨hx, hy⟩ := List.of_mem_zip hxy
        exact Goal.over_related.2 ⟨hrel, hxs x hx, hys y hy⟩
      | _ => exact .noRule hs
    | _ => exact .noRule hs

theorem eqUnify : Method.eqUnify.KeepsApart T := by
  refine of_reduction Search.eqUnify (fun _ _ _ _ => rfl) fun goal s hs hgoal => ?_
  cases goal with
  | subrel lesser greater => exact .noRule hs
  | related rel left right =>
    obtain ⟨-, hleft, hright⟩ := Goal.over_related.1 hgoal
    exact .ifUnify hs hleft hright (fun t ht => .pure ht.apart ⟨by simp, by simp⟩)
      fun t ht => .noRule ht.apart

theorem reflPlaceholder : Method.reflPlaceholder.KeepsApart T := by
  refine of_reduction Search.reflPlaceholder (fun _ _ _ _ => rfl) fun goal s hs hgoal => ?_
  cases goal with
  | subrel lesser greater => exact .noRule hs
  | related rel left right =>
    obtain ⟨hrel, hleft, hright⟩ := Goal.over_related.1 hgoal
    refine .ifUnify hs hleft hright (fun t ht => ?_) fun t ht => .noRule ht.apart
    exact .ifUnify ht.apart (hrel.mono ht.used) (by simp [Term.equality])
      (fun u hu => .pure hu.apart ⟨by simp, by simp⟩) fun u hu => .noRule hu.apart

theorem deferUnsolved : Method.deferUnsolved.KeepsApart T := by
  refine of_reduction (Search.deferUnsolved T) (fun _ _ _ _ => rfl) fun goal s hs hgoal => ?_
  refine .ite (fun _ => ?_) fun _ => .noRule hs
  exact (Search.KeepsApart.defer hs hgoal).bind fun p t ht hp =>
    .pure ht.apart ⟨by simpa using hp, by simp⟩

/-! ## Constructors and case analyses -/

section Cases

variable {rel whole : Term} {args : List Term} {flipped : Bool} {arms arms' : List (Arm Term)}
  {fields : List (FieldRel × Term × Term)}

theorem fieldGoals (hs : s.Apart)
    (hfields : ∀ field x y rel, (field, x, y) ∈ fields → field.relation? whole args = some rel →
      rel.Over V ∧ x.Over V ∧ y.Over V) :
    (fieldGoals goal whole args fields).KeepsApart (Search.fieldGoals goal whole args fields) s
      fun goals _ => ∀ g ∈ goals, g.Over V := by
  induction fields with
  | nil => exact .pure hs (by simp)
  | cons f fields ih =>
    obtain ⟨field, x, y⟩ := f
    refine .require (.noRule hs) fun rel hrel => ?_
    refine (ih fun field x y rel hmem => hfields field x y rel (List.mem_cons_of_mem _ hmem)).bind
      fun goals t ht hgoals => .pure ht.apart (List.forall_mem_cons.2 ⟨?_, hgoals⟩)
    exact Goal.over_related.2 (hfields field x y rel List.mem_cons_self hrel)

theorem relatorIntro (hT : T.Over fun _ => False) : Method.relatorIntro.KeepsApart T := by
  refine of_reduction (Search.relatorIntro T) (fun _ _ _ _ => rfl) fun goal s hs hgoal => ?_
  cases goal with
  | subrel lesser greater => exact .noRule hs
  | related rel left right =>
    obtain ⟨hrel, hleft, hright⟩ := Goal.over_related.1 hgoal
    have hxs := hs.walk hleft
    have hys := hs.walk hright
    refine .subst ?_
    cases hview : s.subst.view rel with
    | named head args =>
      refine .require (.noRule hs) fun scheme hscheme => ?_
      cases hl : s.subst.walk left with
      | app c xs =>
        cases hr : s.subst.walk right with
        | app c' ys =>
          rw [hl, Term.over_app] at hxs
          rw [hr, Term.over_app] at hys
          refine .require (.noRule hs) fun pair hpair => ?_
          have hfixed : ∀ rel : Term, .fixed rel ∈ pair.fields → rel.Over s.used := fun rel hrel =>
            (hT.fixed head scheme hscheme pair (List.mem_of_find?_eq_some hpair) rel hrel).mono
              fun _ h => h.elim
          have hargs : ∀ x ∈ args, x.Over s.used := fun x hx =>
            hs.view hrel hview (by simpa [View.parts] using hx)
          refine (fieldGoals hs fun field x y r hmem hr => over_of_mem_zip (hs.resolve hrel) hargs
            hfixed hxs hys hmem hr).bind fun goals t ht hgoals => ?_
          exact .pure ht.apart ⟨by simp, fun g hg => (hgoals g hg).mono ht.used⟩
        | _ => exact .noRule hs
      | _ => exact .noRule hs
    | _ => exact .noRule hs

theorem casesReduce : Method.casesReduce.KeepsApart T := by
  refine of_reduction Search.casesReduce (fun _ _ _ _ => rfl) fun goal s hs hgoal => ?_
  cases goal with
  | subrel lesser greater => exact .noRule hs
  | related rel left right =>
    obtain ⟨hrel, hleft, hright⟩ := Goal.over_related.1 hgoal
    have hside : ∀ {u : Term}, u.Over s.used → ((taken? s.subst u).getD u).Over s.used := by
      intro u hu
      cases h : taken? s.subst u with
      | none => exact hu
      | some v => exact hs.only.subst.within.taken? hu h
    have hsub : (Reduction.mk [] [.related rel ((taken? s.subst left).getD left)
        ((taken? s.subst right).getD right)]).Over s.used :=
      ⟨by simp, by simp [hrel, hside hleft, hside hright]⟩
    refine .subst ?_
    split
    · exact .noRule hs
    · exact .pure hs hsub

theorem fieldHypotheses (hs : s.Apart)
    (hfields : ∀ field x y rel, (field, x, y) ∈ fields → field.relation? whole args = some rel →
      rel.Over V ∧ x.Over V ∧ y.Over V) :
    (fieldHypotheses goal whole args flipped fields).KeepsApart
      (Search.fieldHypotheses goal whole args flipped fields) s
      fun hyps _ => ∀ h ∈ hyps, h.Over V := by
  induction fields generalizing s with
  | nil => exact .pure hs (by simp)
  | cons f fields ih =>
    obtain ⟨field, x, y⟩ := f
    refine .require (.noRule hs) fun rel hrel => ?_
    refine (Search.KeepsApart.freshConst hs).bind fun h t ht hh => ?_
    refine (ih ht.apart fun field x y rel hmem =>
      hfields field x y rel (List.mem_cons_of_mem _ hmem)).bind fun hyps u hu hhyps => ?_
    obtain ⟨hr, hx, hy⟩ := hfields field x y rel List.mem_cons_self hrel
    refine .pure hu.apart (List.forall_mem_cons.2 ⟨⟨hr, ?_, ?_, hh V⟩, hhyps⟩)
    · cases flipped <;> assumption
    · cases flipped <;> assumption

theorem schemeSplit {pairs : List CasePair} (hs : s.Apart) (hrel : rel.Over V)
    (hwhole : whole.Over V) (hargs : ∀ x ∈ args, x.Over V)
    (hfixed : ∀ pair ∈ pairs, ∀ r : Term, .fixed r ∈ pair.fields → r.Over V)
    (harms : ∀ arm ∈ arms, arm.body.Over V) (harms' : ∀ arm ∈ arms', arm.body.Over V) :
    (schemeSplit goal rel whole args flipped arms arms' pairs).KeepsApart
      (Search.schemeSplit goal rel whole args flipped arms arms' pairs) s
      fun cases _ => ∀ c ∈ cases, c.Over V := by
  induction pairs generalizing s with
  | nil => exact .pure hs (by simp)
  | cons pair pairs ih =>
    rw [List.forall_mem_cons] at hfixed
    rw [Search.schemeSplit]
    cases harm : armFor? arms (if flipped then pair.right else pair.left) with
    | none => exact .noRule hs
    | some arm =>
      cases harm' : armFor? arms' (if flipped then pair.left else pair.right) with
      | none => exact .noRule hs
      | some arm' =>
        refine .ite (fun _ => ?_) fun _ => .noRule hs
        refine (Search.KeepsApart.freshConsts hs).bind fun xs t₁ h₁ hxs =>
          (Search.KeepsApart.freshConsts h₁.apart).bind fun ys t₂ h₂ hys => ?_
        refine (fieldHypotheses (V := V) h₂.apart fun field x y r hmem hr => ?_).bind
          fun hyps t₃ h₃ hhyps => ?_
        · exact over_of_mem_zip hwhole hargs hfixed.1 (fun x hx => hxs x hx V)
            (fun y hy => hys y hy V) hmem hr
        refine .require (.noRule h₃.apart) fun left hleft => .require (.noRule h₃.apart)
          fun right hright => (ih h₃.apart hfixed.2).bind fun cases t₄ h₄ hcases => ?_
        refine .pure h₄.apart (List.forall_mem_cons.2 ⟨⟨hhyps, Goal.over_related.2 ⟨hrel, ?_, ?_⟩⟩,
          hcases⟩)
        · exact (harms arm (mem_of_armFor? harm)).applyArm? (fun x hx => hxs x hx V) hleft
        · exact (harms' arm' (mem_of_armFor? harm')).applyArm? (fun y hy => hys y hy V) hright

theorem alignedSplit (hs : s.Apart) (hrel : rel.Over V) (harms : ∀ arm ∈ arms, arm.body.Over V)
    (harms' : ∀ arm ∈ arms', arm.body.Over V) :
    (alignedSplit goal rel arms' arms).KeepsApart (Search.alignedSplit goal rel arms' arms) s
      fun cases _ => ∀ c ∈ cases, c.Over V := by
  induction arms generalizing s with
  | nil => exact .pure hs (by simp)
  | cons arm arms ih =>
    rw [List.forall_mem_cons] at harms
    refine .require (.noRule hs) fun arm' harm' => ?_
    refine (Search.KeepsApart.freshConsts hs).bind fun xs t ht hxs => ?_
    refine .require (.noRule ht.apart) fun left hleft => .require (.noRule ht.apart)
      fun right hright => (ih ht.apart harms.2).bind fun cases u hu hcases => ?_
    have hmem := mem_of_armFor? (Option.filter_eq_some_iff.1 harm').1
    refine .pure hu.apart (List.forall_mem_cons.2 ⟨⟨by simp, Goal.over_related.2 ⟨hrel, ?_, ?_⟩⟩,
      hcases⟩)
    · exact harms.1.applyArm? (fun x hx => hxs x hx V) hleft
    · exact (harms' arm' hmem).applyArm? (fun x hx => hxs x hx V) hright

theorem pairsSplit {pairs : List (Arm Term × Arm Term)} (hs : s.Apart) (hrel : rel.Over V)
    (hpairs : ∀ pair ∈ pairs, pair.1.body.Over V ∧ pair.2.body.Over V) :
    (pairsSplit rel pairs).KeepsApart (Search.pairsSplit rel pairs) s
      fun cases _ => ∀ c ∈ cases, c.Over V := by
  induction pairs generalizing s with
  | nil => exact .pure hs (by simp)
  | cons pair pairs ih =>
    obtain ⟨arm, arm'⟩ := pair
    rw [List.forall_mem_cons] at hpairs
    refine (Search.KeepsApart.freshConsts hs).bind fun xs t₁ h₁ hxs =>
      (Search.KeepsApart.freshConsts h₁.apart).bind fun ys t₂ h₂ hys => ?_
    cases hleft : applyArm? arm.body xs with
    | none => exact ih h₂.apart hpairs.2
    | some left =>
      cases hright : applyArm? arm'.body ys with
      | none => exact ih h₂.apart hpairs.2
      | some right =>
        refine (ih h₂.apart hpairs.2).bind fun cases t₃ h₃ hcases => .pure h₃.apart ?_
        refine List.forall_mem_cons.2 ⟨⟨by simp, Goal.over_related.2 ⟨hrel, ?_, ?_⟩⟩, hcases⟩
        · exact hpairs.1.1.applyArm? (fun x hx => hxs x hx V) hleft
        · exact hpairs.1.2.applyArm? (fun y hy => hys y hy V) hright

theorem split {scrutinees : Term} (hT : T.Over fun _ => False) (hs : s.Apart)
    (hrel : rel.Over s.used) (hscrutinees : scrutinees.Over s.used)
    (harms : ∀ arm ∈ arms, arm.body.Over s.used) (harms' : ∀ arm ∈ arms', arm.body.Over s.used) :
    (split T goal rel scrutinees arms arms').KeepsApart
      (Search.split T goal rel scrutinees arms arms') s
      fun cases _ => ∀ c ∈ cases, c.Over s.used := by
  have hpairs : ∀ pair ∈ allPairs arms arms',
      pair.1.body.Over s.used ∧ pair.2.body.Over s.used := by
    intro pair hpair
    obtain ⟨arm, harm, harm'⟩ := List.mem_flatMap.1 hpair
    obtain ⟨arm', hmem, rfl⟩ := List.mem_map.1 harm'
    exact ⟨harms arm harm, harms' arm' hmem⟩
  have hall : (Search.pairsSplit rel (allPairs arms arms')).KeepsApart
      (Search.pairsSplit rel (allPairs arms arms')) s fun cases _ => ∀ c ∈ cases, c.Over s.used :=
    pairsSplit hs hrel hpairs
  have hscheme {head : String} {args : List Term} {whole : Term} (flipped : Bool)
      {scheme : Scheme} (hscheme : T.registry.schemes.get? head = some scheme)
      (hwhole : whole.Over s.used) (hargs : ∀ x ∈ args, x.Over s.used) :
      (Search.schemeSplit goal rel whole args flipped arms arms' scheme.cases).KeepsApart
        (Search.schemeSplit goal rel whole args flipped arms arms' scheme.cases) s
        fun cases _ => ∀ c ∈ cases, c.Over s.used :=
    schemeSplit hs hrel hwhole hargs (fun pair hpair r hr =>
      (hT.fixed head scheme hscheme pair hpair r hr).mono fun _ h => h.elim) harms harms'
  refine .subst ?_
  cases hview : s.subst.view scrutinees with
  | equality => exact alignedSplit hs hrel harms harms'
  | named head args =>
    dsimp only
    cases hget : T.registry.schemes.get? head with
    | none => exact hall
    | some scheme =>
      refine hscheme false hget (hs.resolve hscrutinees) fun x hx => ?_
      exact hs.view hscrutinees hview (by simpa [View.parts] using hx)
  | flip inner =>
    have hinner := hs.view hscrutinees hview (u := inner) (by simp [View.parts])
    dsimp only
    cases hview' : s.subst.view inner with
    | named head args =>
      dsimp only
      cases hget : T.registry.schemes.get? head with
      | none => exact hall
      | some scheme =>
        refine hscheme true hget (hs.resolve hinner) fun x hx => ?_
        exact hs.view hinner hview' (by simpa [View.parts] using hx)
    | _ => exact hall
  | _ => exact hall

theorem proveCases {prove prove' : Prover} (hprove : prove.KeepsApart prove')
    {emit emit' : Reduction → Search ρ} {cases : List Case} {done : List Proof} (hs : s.Apart)
    (hcases : ∀ c ∈ cases, c.Over s.used) (hdone : ∀ p ∈ done, p.Over s.used)
    (hemit : ∀ r t, s.Leads t → r.Over t.used → (emit r).KeepsApart (emit' r) t) :
    (proveCases prove emit cases done).KeepsApart (Search.proveCases prove' emit' cases done)
      s := by
  induction cases generalizing s done with
  | nil => exact hemit _ s hs.leads ⟨hdone, by simp⟩
  | cons c cases ih =>
    rw [List.forall_mem_cons] at hcases
    refine hprove.proveAssuming hs hcases.1.hyps hcases.1.goal fun p t ht hp =>
      ih ht.apart (fun c hc => (hcases.2 c hc).mono ht.used) ?_ fun r u hu =>
        hemit r u (ht.trans hu)
    exact List.forall_mem_append.2 ⟨fun q hq => (hdone q hq).mono ht.used, by simpa using hp⟩

end Cases

theorem destruct (hT : T.Over fun _ => False) : Method.destruct.KeepsApart T := by
  intro prove prove' hprove ρ name goal emit emit' s hs hgoal hemit
  cases goal with
  | subrel lesser greater => exact .noRule hs
  | related rel left right =>
    obtain ⟨hrel, hleft, hright⟩ := Goal.over_related.1 hgoal
    have hl := hs.walk hleft
    have hr := hs.walk hright
    refine .subst ?_
    cases hcases : s.subst.walk left with
    | cases scrutinee arms =>
      cases hcases' : s.subst.walk right with
      | cases scrutinee' arms' =>
        rw [hcases, Term.over_cases] at hl
        rw [hcases', Term.over_cases] at hr
        refine (Search.KeepsApart.freshVar hs).bind fun scrutinees t ht hscrutinees => ?_
        refine hprove ht.apart ?_ fun p u hu hp => ?_
        · exact Goal.over_related.2 ⟨hscrutinees, hl.1.mono ht.used, hr.1.mono ht.used⟩
        · have hsu := ht.trans hu
          refine (split hT hu.apart (hrel.mono hsu.used) (hscrutinees.mono hu.used)
            (fun arm harm => (hl.2 arm harm).mono hsu.used)
            fun arm harm => (hr.2 arm harm).mono hsu.used).bind fun cases v hv hover => ?_
          exact proveCases hprove hv.apart (fun c hc => (hover c hc).mono hv.used)
            (by simpa using hp.mono hv.used) fun r w hw => hemit r w ((hsu.trans hv).trans hw)
      | _ => exact .noRule hs
    | _ => exact .noRule hs

/-! ## Inclusions -/

theorem subrelRefl : Method.subrelRefl.KeepsApart T := by
  refine of_reduction Search.subrelRefl (fun _ _ _ _ => rfl) fun goal s hs hgoal => ?_
  cases goal with
  | related rel left right => exact .noRule hs
  | subrel lesser greater =>
    obtain ⟨hlesser, hgreater⟩ := Goal.over_subrel.1 hgoal
    refine .subst (.ite (fun _ => .pure hs ⟨by simp, by simp⟩) fun _ => ?_)
    exact .ifUnify hs hlesser hgreater (fun t ht => .pure ht.apart ⟨by simp, by simp⟩)
      fun t ht => .noRule ht.apart

theorem subrelExtremes : Method.subrelExtremes.KeepsApart T := by
  refine of_reduction Search.subrelExtremes (fun _ _ _ _ => rfl) fun goal s hs hgoal => ?_
  cases goal with
  | related rel left right => exact .noRule hs
  | subrel lesser greater =>
    exact .subst (.ite (fun _ => .pure hs ⟨by simp, by simp⟩) fun _ => .noRule hs)

/-- Every registered inclusion is renamed to a block of its own. -/
theorem eachInclusion (hR : T.registry.Bounded) {run run' : Nat → Term → Term → Search ρ}
    (hs : s.Apart)
    (hrun : ∀ id lesser greater t, s.Leads t → lesser.Over t.used → greater.Over t.used →
      (run id lesser greater).KeepsApart (run' id lesser greater) t) :
    (eachInclusion T goal run).KeepsApart (Search.eachInclusion T goal run') s := by
  refine .tryEach hs.leads (fun entry hentry t ht => ?_) fun best t ht =>
    .failBest ht.apart (.noRule ht.apart)
  obtain ⟨f, id⟩ := entry
  have hf := hR.inclusions f (Array.mem_def.2 (List.fst_mem_of_mem_zipIdx hentry))
  refine (Search.KeepsApart.reserve ht.apart).bind fun first u hu hfirst => ?_
  have hused : ∀ i, Block first f.schematic i → u.used i := fun i hi => hi.used hfirst.next.ge
  exact hrun id _ _ u (ht.trans hu) ((hf.lesser.rename first).mono hused)
    ((hf.greater.rename first).mono hused)

theorem subrelFact (hR : T.registry.Bounded) : Method.subrelFact.KeepsApart T := by
  intro prove prove' hprove ρ name goal emit emit' s hs hgoal hemit
  cases goal with
  | related rel left right => exact .noRule hs
  | subrel lesser greater =>
    obtain ⟨hlesser, hgreater⟩ := Goal.over_subrel.1 hgoal
    unfold Method.run Search.subrelFact
    refine eachInclusion hR hs fun id l g t ht hl hg => ?_
    refine .ifUnify ht.apart (hlesser.mono ht.used) hl (fun u hu => ?_) fun u hu => .noRule hu.apart
    have hsu := ht.trans hu
    refine .ifUnify hu.apart (hgreater.mono hsu.used) (hg.mono hu.used) (fun v hv => ?_)
      fun v hv => .noRule hv.apart
    exact hemit _ v (hsu.trans hv) ⟨by simp [Proof.Over, Proof.witness?], by simp⟩

theorem subrelTrans (hR : T.registry.Bounded) : Method.subrelTrans.KeepsApart T := by
  intro prove prove' hprove ρ name goal emit emit' s hs hgoal hemit
  cases goal with
  | related rel left right => exact .noRule hs
  | subrel lesser greater =>
    obtain ⟨hlesser, hgreater⟩ := Goal.over_subrel.1 hgoal
    unfold Method.run Search.subrelTrans
    refine eachInclusion hR hs fun id l g t ht hl hg => ?_
    refine .ifUnify ht.apart (hlesser.mono ht.used) hl (fun u hu => ?_) fun u hu => .noRule hu.apart
    have hsu := ht.trans hu
    refine hemit _ u hsu ⟨by simp [Proof.Over, Proof.witness?], ?_⟩
    simp [hg.mono hu.used, hgreater.mono hsu.used]

theorem argumentInclusions {pairs : List (Term × Term × Variance)} (hs : s.Apart)
    (hpairs : ∀ p ∈ pairs, p.1.Over s.used ∧ p.2.1.Over s.used) :
    (argumentInclusions goal pairs).KeepsApart (Search.argumentInclusions goal pairs) s
      fun goals t => ∀ g ∈ goals, g.Over t.used := by
  induction pairs generalizing s with
  | nil => exact .pure hs (by simp)
  | cons pair pairs ih =>
    obtain ⟨a, b, variance⟩ := pair
    rw [List.forall_mem_cons] at hpairs
    obtain ⟨⟨ha, hb⟩, hpairs⟩ := hpairs
    cases variance with
    | covariant =>
      refine (ih hs hpairs).bind fun goals t ht hgoals => .pure ht.apart ?_
      exact List.forall_mem_cons.2 ⟨Goal.over_subrel.2 ⟨ha.mono ht.used, hb.mono ht.used⟩, hgoals⟩
    | contravariant =>
      refine (ih hs hpairs).bind fun goals t ht hgoals => .pure ht.apart ?_
      exact List.forall_mem_cons.2 ⟨Goal.over_subrel.2 ⟨hb.mono ht.used, ha.mono ht.used⟩, hgoals⟩
    | invariant =>
      refine .ifUnify hs ha hb (fun t ht => ih ht.apart fun p hp => ?_) fun t ht => .noRule ht.apart
      exact ⟨(hpairs p hp).1.mono ht.used, (hpairs p hp).2.mono ht.used⟩

theorem subrelStructural : Method.subrelStructural.KeepsApart T := by
  refine of_reduction (Search.subrelStructural T) (fun _ _ _ _ => rfl) fun goal s hs hgoal => ?_
  cases goal with
  | related rel left right => exact .noRule hs
  | subrel lesser greater =>
    obtain ⟨hlesser, hgreater⟩ := Goal.over_subrel.1 hgoal
    refine .subst ?_
    split
    · next a b a' b' hl hg =>
      have ha := hs.view hlesser hl (u := a) (by simp [View.parts])
      have hb := hs.view hlesser hl (u := b) (by simp [View.parts])
      have ha' := hs.view hgreater hg (u := a') (by simp [View.parts])
      have hb' := hs.view hgreater hg (u := b') (by simp [View.parts])
      exact .pure hs ⟨by simp, by simp [ha, hb, ha', hb']⟩
    · next a b hl hg =>
      have ha := hs.view hlesser hl (u := a) (by simp [View.parts])
      have hb := hs.view hgreater hg (u := b) (by simp [View.parts])
      exact .pure hs ⟨by simp, by simp [ha, hb]⟩
    · next e f e' f' hl hg =>
      have he := hs.view hlesser hl (u := e) (by simp [View.parts])
      have hf := hs.view hlesser hl (u := f) (by simp [View.parts])
      have he' := hs.view hgreater hg (u := e') (by simp [View.parts])
      have hf' := hs.view hgreater hg (u := f') (by simp [View.parts])
      refine (Search.KeepsApart.freshConst hs).bind fun v t₁ h₁ hv =>
        (Search.KeepsApart.freshConst h₁.apart).bind fun w t₂ h₂ hw =>
          (Search.KeepsApart.freshConst h₂.apart).bind fun x t₃ h₃ hx => ?_
      have hst := (h₁.trans h₂).trans h₃
      have hwithin := hs.only.subst.within
      cases hr : s.subst.family? f v w x with
      | none => exact .noRule h₃.apart
      | some r =>
        cases hr' : s.subst.family? f' v w x with
        | none => exact .noRule h₃.apart
        | some r' =>
          have hr := (hwithin.family? hf (hv _) (hw _) (hx _) hr).mono hst.used
          have hr' := (hwithin.family? hf' (hv _) (hw _) (hx _) hr').mono hst.used
          refine .pure h₃.apart ⟨by simp, ?_⟩
          simp [he.mono hst.used, he'.mono hst.used, hr, hr']
    · next h xs h' ys hl hg =>
      have hxs : ∀ x ∈ xs, x.Over s.used := fun x hx =>
        hs.view hlesser hl (by simpa [View.parts] using hx)
      have hys : ∀ y ∈ ys, y.Over s.used := fun y hy =>
        hs.view hgreater hg (by simpa [View.parts] using hy)
      refine .ite (fun _ => .require (.noRule hs) fun variances _ => .ite (fun _ => ?_) fun _ =>
        .noRule hs) fun _ => .noRule hs
      refine (argumentInclusions hs fun p hp => ?_).bind fun goals t ht hgoals =>
        .pure ht.apart ⟨by simp, hgoals⟩
      obtain ⟨hx, hp'⟩ := List.of_mem_zip hp
      exact ⟨hxs _ hx, hys _ (List.of_mem_zip hp').1⟩
    · exact .noRule hs

end Method.KeepsApart

end Monotonicity
