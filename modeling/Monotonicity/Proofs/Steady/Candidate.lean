import Monotonicity.Proofs.Calculus.Candidate
import Monotonicity.Proofs.Search.Watch

/-!
# The use of facts and hypotheses is steady

A candidate is in sight: a hypothesis because it is in scope, and a fact because it is renamed to new
placeholders. Lining it up with the goal, eliminating arguments and bridging to the goal's relation
are steps of one course, in which the relation reached and the goals owed stay in sight.
-/

namespace Monotonicity

open Search

variable {T : Theory} {ρ : Type} {fuel : Nat} {F : Handover} {w : Place} {prove prove' : Prover}
  {s t u : State} {goal g : Goal} {ps : List Proof} {S : ρ → State → Prop}
  {e : Elimination} {a b : Term} {k k' : Elimination → Search ρ}

/-! ## Lining a candidate up -/

theorem Encloses.of_new {V : Nat → Prop} {xs : List Term} (hV : Encloses T s goal V ps t)
    (ht : s.Grown u) (hxs : ∀ x ∈ xs, ∃ i, u.ledger.nextVar ≤ i ∧ x = .var i) :
    ∀ x ∈ xs, x.Over V := by
  intro x hx
  obtain ⟨i, hi, rfl⟩ := hxs x hx
  exact Term.over_var.2 (hV.later i (ht.ledger.nextVar.trans hi))

/-- The arguments that are split off a side in sight are in sight. -/
theorem Course.splitSide_gets (hacyclic : s.subst.Acyclic) (hcourse : Course T F s goal ps t)
    {extra : Nat} (ha : Seen T s goal ps t a) (hb : Seen T s goal ps t b) :
    (splitSide g a b extra).Gets t fun xs u =>
      Course T F s goal ps u ∧ ∀ V, Encloses T s goal V ps u → ∀ x ∈ xs, x.Over V := by
  refine Gets.subst ?_
  split
  · next i hwalk =>
    refine freshVars_gets.bind fun xs t₁ _ h₁ => ?_
    obtain ⟨hk₁, -, -, hxs⟩ := h₁
    refine (Gets.require .noCandidate).bind fun value t₂ _ h₂ => ?_
    obtain ⟨hvalue, rfl⟩ := h₂
    have hnew : ∀ V u, Encloses T s goal V ps u → ∀ x ∈ xs, x.Over V :=
      fun V u hV => hV.of_new hcourse.grown hxs
    refine ((hcourse.keep hk₁).unify_gets (fun V hV => ?_) fun V hV => ?_).bind
      fun ok u _ hu => ?_
    · rw [← hwalk]
      have hbefore := hV.of_kept hk₁
      exact hbefore.state.bindings.walk (ha V hbefore)
    · have hbefore := hV.of_kept hk₁
      split at hvalue
      · cases hvalue
        exact hb V hbefore
      · exact (hbefore.state.bindings.walk (hb V hbefore)).extend? (hnew V _ hV) hvalue
    · cases ok with
      | true => exact .pure ⟨hu, fun V hV => hnew V u hV⟩
      | false => exact .noCandidate
  · next head args hwalk =>
    split
    · exact .noCandidate
    · have hargs : ∀ V, Encloses T s goal V ps t → ∀ x ∈ args, x.Over V := fun V hV => by
        have happ := hV.state.bindings.walk (ha V hV)
        rwa [hwalk, Term.over_app] at happ
      dsimp only
      refine (hcourse.unify_gets (fun V hV => ?_) hb).bind fun ok u hu hnext => ?_
      · exact Term.over_app.2 fun x hx => hargs V hV x (List.mem_of_mem_take hx)
      · cases ok with
        | false => exact .noCandidate
        | true =>
          refine .pure ⟨hnext, fun V hV x hx => hargs V ?_ x (List.mem_of_mem_drop hx)⟩
          exact hV.of_grown (hnext.grown.acyclic hacyclic) hu (List.prefix_refl _)
  · exact .noCandidate

/-! ## Eliminating arguments -/

/-- An elimination in the course of a rule's application: the proofs are those used, and the relation
reached and the goals owed are in sight. -/
structure Underway (T : Theory) (F : Handover) (s : State) (goal : Goal) (e : Elimination)
    (t : State) : Prop where
  course : Course T F s goal e.premises t
  rel : Seen T s goal e.premises t e.rel
  subgoals : ∀ V, Encloses T s goal V e.premises t → ∀ g ∈ e.subgoals, g.Over V

namespace Underway

/-- Another relation in sight instead of the one reached. -/
theorem turn (h : Underway T F s goal e t) {rel : Term} (hrel : Seen T s goal e.premises t rel) :
    Underway T F s goal { e with rel := rel } t :=
  ⟨h.course, hrel, h.subgoals⟩

theorem owing (h : Underway T F s goal e t) {rel : Term} (hrel : Seen T s goal e.premises t rel)
    (hg : ∀ V, Encloses T s goal V e.premises t → g.Over V) :
    Underway T F s goal (e.owing rel g) t where
  course := h.course
  rel := hrel
  subgoals V hV g' hg' := by
    rcases List.mem_append.1 hg' with hg' | hg'
    · exact h.subgoals V hV g' hg'
    · obtain rfl : g' = g := by simpa using hg'
      exact hg V hV

/-- What was in sight is so after steps that use no proof. -/
theorem later (h : Underway T F s goal e t) (hacyclic : s.subst.Acyclic) (hu : t.Grown u)
    (hcourse : Course T F s goal e.premises u) : Underway T F s goal e u where
  course := hcourse
  rel := h.rel.later (hcourse.grown.acyclic hacyclic) hu (List.prefix_refl _)
  subgoals V hV :=
    h.subgoals V (hV.of_grown (hcourse.grown.acyclic hacyclic) hu (List.prefix_refl _))

theorem via (h : Underway T F s goal e t) (hacyclic : s.subst.Acyclic) {p : Proof} {rel : Term}
    (hu : t.Grown u) (hcourse : Course T F s goal (e.premises ++ [p]) u)
    (hrel : Seen T s goal (e.premises ++ [p]) u rel) : Underway T F s goal (e.via rel p) u where
  course := hcourse
  rel := hrel
  subgoals V hV :=
    h.subgoals V (hV.of_grown (hcourse.grown.acyclic hacyclic) hu (List.prefix_append ..))

end Underway

/-- The name of an edge is that of its proof, or a constant. -/
theorem Course.edgeName_gets {p : Proof} (hcourse : Course T F s goal ps t) (hp : p ∈ ps) :
    (edgeName p).Gets t fun name u => t.Kept u ∧ Course T F s goal ps u ∧
      Seen T s goal ps u name := by
  refine Search.edgeName_gets.mono fun name u _ h => ⟨h.1, hcourse.keep h.1, fun V hV => ?_⟩
  rcases h.2 with hname | ⟨-, rfl, -⟩
  · exact hV.proofs p hp name hname
  · simp

theorem eliminateStraight_follows (hprove : Paired T fuel F w prove prove') (hs : s.place = w)
    (hacyclic : s.subst.Acyclic) (h : Underway T F s goal e t)
    (ha : Seen T s goal e.premises t a) (hb : Seen T s goal e.premises t b)
    (hk : ∀ e' u, t.Grown u → e.premises <+: e'.premises → Underway T F s goal e' u →
      Follows T fuel (k e') (k' e') u u.Grown S) :
    Follows T fuel (eliminateStraight prove g e a b k) (eliminateStraight prove' g e a b k') t
      t.Grown S := by
  refine Follows.subst ?_
  cases hview : t.subst.view e.rel with
  | arrow dom cod =>
    have hparts : ∀ V, Encloses T s goal V e.premises t → dom.Over V ∧ cod.Over V :=
      fun V hV => ⟨hV.view (h.rel V hV) hview (by simp [View.parts]),
        hV.view (h.rel V hV) hview (by simp [View.parts])⟩
    refine hk _ t (.refl t) (List.prefix_refl _) (h.owing (fun V hV => (hparts V hV).2) ?_)
    exact fun V hV => Goal.over_related.2 ⟨(hparts V hV).1, ha V hV, hb V hV⟩
  | dependent edge family =>
    have hparts : ∀ V, Encloses T s goal V e.premises t → edge.Over V ∧ family.Over V :=
      fun V hV => ⟨hV.view (h.rel V hV) hview (by simp [View.parts]),
        hV.view (h.rel V hV) hview (by simp [View.parts])⟩
    refine hprove.proves hs hacyclic h.course (fun V hV => ?_) fun p u hu hnext => ?_
    · exact Goal.over_related.2 ⟨(hparts V hV).1, ha V hV, hb V hV⟩
    · refine (hnext.edgeName_gets (by simp)).follows fun name v _ hname => ?_
      obtain ⟨hkept, hnamed, hseen⟩ := hname
      refine Follows.subst ((Gets.require .gap).follows fun rel v' _ hrel => ?_)
      obtain ⟨hrel, rfl⟩ := hrel
      have hv : t.Grown v' := hu.trans hkept.grown
      refine hk _ v' hv (List.prefix_append ..) (h.via hacyclic hv hnamed fun V hV => ?_)
      have hback := hV.of_grown (hnamed.grown.acyclic hacyclic) hv (List.prefix_append ..)
      exact hV.state.bindings.family? (hparts V hback).2 (ha V hback) (hb V hback) (hseen V hV)
        hrel
  | equality =>
    refine hk _ t (.refl t) (List.prefix_refl _) (h.owing h.rel ?_)
    exact fun V hV => Goal.over_related.2 ⟨h.rel V hV, ha V hV, hb V hV⟩
  | top => exact hk e t (.refl t) (List.prefix_refl _) h
  | placeholder i =>
    refine freshVar_gets.follows fun dom t₁ _ h₁ => freshVar_gets.follows fun cod t₂ _ h₂ => ?_
    obtain ⟨hk₁, -, rfl⟩ := h₁
    obtain ⟨hk₂, -, rfl⟩ := h₂
    have hdom : ∀ V ps u, Encloses T s goal V ps u → V t.ledger.nextVar :=
      fun V _ _ hV => hV.later _ h.course.grown.ledger.nextVar
    have hcod : ∀ V ps u, Encloses T s goal V ps u → V t₁.ledger.nextVar :=
      fun V _ _ hV => hV.later _ (h.course.grown.trans hk₁.grown).ledger.nextVar
    have hkept := h.course.keep (hk₁.trans hk₂)
    refine unify_follows hkept (fun V hV => h.rel V (hV.of_kept (hk₁.trans hk₂))) (fun V hV => ?_)
      (fun u hu hnext => ?_) fun _ => .gap
    · simp [Term.arrow, hdom V _ _ hV, hcod V _ _ hV]
    · have hgrown : t.Grown u := (hk₁.trans hk₂).grown.trans hu
      refine hk _ u hgrown (List.prefix_refl _) ((h.later hacyclic hgrown hnext).owing ?_ ?_)
      · exact fun V hV => Term.over_var.2 (hcod V _ _ hV)
      · intro V hV
        have hback := hV.of_grown (hnext.grown.acyclic hacyclic) hgrown (List.prefix_refl _)
        exact Goal.over_related.2 ⟨Term.over_var.2 (hdom V _ _ hV), ha V hback, hb V hback⟩
  | _ => exact .gap

theorem eliminate_follows (hprove : Paired T fuel F w prove prove') (hs : s.place = w)
    (hacyclic : s.subst.Acyclic) (h : Underway T F s goal e t)
    (ha : Seen T s goal e.premises t a) (hb : Seen T s goal e.premises t b)
    (hk : ∀ e' u, t.Grown u → e.premises <+: e'.premises → Underway T F s goal e' u →
      Follows T fuel (k e') (k' e') u u.Grown S) :
    Follows T fuel (eliminate prove g e a b k) (eliminate prove' g e a b k') t t.Grown S := by
  have hstraight : Follows T fuel (eliminateStraight prove g e a b k)
      (eliminateStraight prove' g e a b k') t t.Grown S :=
    eliminateStraight_follows hprove hs hacyclic h ha hb hk
  refine Follows.subst ?_
  cases hview : t.subst.view e.rel with
  | flip inner =>
    have hinner : Seen T s goal e.premises t inner := fun V hV =>
      hV.view (h.rel V hV) hview (by simp [View.parts])
    have hsame : Follows T fuel (eliminateStraight prove g { e with rel := inner } a b k)
        (eliminateStraight prove' g { e with rel := inner } a b k') t t.Grown S :=
      eliminateStraight_follows hprove hs hacyclic (h.turn hinner) ha hb hk
    have hswap : Follows T fuel
        (eliminateStraight prove g { e with rel := inner } b a fun e =>
          k { e with rel := e.rel.flip })
        (eliminateStraight prove' g { e with rel := inner } b a fun e =>
          k' { e with rel := e.rel.flip }) t t.Grown S := by
      refine eliminateStraight_follows hprove hs hacyclic (h.turn hinner) hb ha ?_
      intro e' u hu hpremises he'
      refine hk _ u hu hpremises (he'.turn fun V hV => ?_)
      simpa [Term.flip] using he'.rel V hV
    cases hview' : t.subst.view inner with
    | equality => simpa only [hview'] using hsame
    | top => simpa only [hview'] using hsame
    | arrow dom cod => simpa only [hview'] using hswap
    | dependent edge family => simpa only [hview'] using hswap
    | placeholder i => simpa only [hview'] using hswap
    | _ => simpa only [hview'] using Follows.gap
  | _ => exact hstraight

theorem eliminateAll_follows (hprove : Paired T fuel F w prove prove') (hs : s.place = w)
    (hacyclic : s.subst.Acyclic) {pairs : List (Term × Term)} (h : Underway T F s goal e t)
    (hpairs : ∀ V, Encloses T s goal V e.premises t → ∀ p ∈ pairs, p.1.Over V ∧ p.2.Over V)
    (hk : ∀ e' u, Underway T F s goal e' u → Follows T fuel (k e') (k' e') u u.Grown S) :
    Follows T fuel (eliminateAll prove g k pairs e) (eliminateAll prove' g k' pairs e) t
      t.Grown S := by
  induction pairs generalizing e t with
  | nil => exact hk e t h
  | cons pair rest ih =>
    obtain ⟨a, b⟩ := pair
    refine eliminate_follows hprove hs hacyclic h
      (fun V hV => (hpairs V hV _ List.mem_cons_self).1)
      (fun V hV => (hpairs V hV _ List.mem_cons_self).2) fun e' u hu hpremises he' => ih he' ?_
    intro V hV p hp
    have hback := hV.of_grown (he'.course.grown.acyclic hacyclic) hu hpremises
    exact hpairs V hback p (List.mem_cons_of_mem _ hp)

theorem bridge_follows (hprove : Paired T fuel F w prove prove') (hs : s.place = w)
    (hacyclic : s.subst.Acyclic) {wanted : Term} (h : Underway T F s goal e t)
    (hwanted : ∀ V, goal.Over V → wanted.Over V)
    (hk : ∀ e' u, Underway T F s goal e' u → Follows T fuel (k e') (k' e') u u.Grown S) :
    Follows T fuel (bridge prove g wanted e k) (bridge prove' g wanted e k') t t.Grown S := by
  refine Follows.subst (Follows.ite (fun _ => hk e t h) fun _ => ?_)
  refine bridging_follows (fun cross cross' hcross u hu => ?_) fun crossed why u => ?_
  · have hstart := h.later hacyclic hu.grown (h.course.keep hu)
    refine hprove.proves hs hacyclic hstart.course (fun V hV => ?_) fun p v hv hnext => ?_
    · exact Goal.over_subrel.2 ⟨hstart.rel V hV, hwanted V hV.goal⟩
    · refine hcross p v fun v' hv' => hk _ v' ?_
      refine hstart.via hacyclic (hv.trans hv'.grown) (hnext.keep hv') ?_
      exact fun V hV => hwanted V hV.goal
  · split
    · exact ⟨why, rfl⟩
    · exact ⟨_, rfl⟩

/-! ## Monotonicity -/

/-- What a look-up finds is in sight. -/
theorem Found.seen {side : Side} {head : String} {batch : Batch} {c : Candidate} {first : Nat}
    (h : Found T s.subst s.hyps first side head batch c) (hfirst : s.ledger.nextVar ≤ first)
    (hu : s.Kept u) :
    ∀ x ∈ [c.rel, c.left, c.right, c.witness], Seen T s goal [] u x := by
  cases h with
  | hypothesis hh hside hcovers =>
    have hmem := List.mem_of_getElem? hh
    intro x hx V hV
    have hover := (hV.of_kept hu).state.hyps _ hmem
    simp only [List.mem_cons, List.not_mem_nil, or_false] at hx
    rcases hx with rfl | rfl | rfl | rfl
    exacts [hover.rel, hover.left, hover.right, hover.witness]
  | fact hfact hside hcovers hoffset =>
    intro x hx V hV
    simp only [List.mem_cons, List.not_mem_nil, or_false] at hx
    rcases hx with rfl | rfl | rfl | rfl <;> exact hV.rename _ (hfirst.trans hoffset)

theorem factCandidates_refuel {side : Side} {batch : Batch} {ids : List Nat} :
    factCandidates (T.refuel fuel) side batch ids = factCandidates T side batch ids := by
  induction ids with
  | nil => rfl
  | cons id rest ih =>
    simp only [factCandidates, ih]
    rfl

/-- Looking up does not ask for steps. -/
theorem probe_refuel {side : Side} {head : String} {batch : Batch} :
    probe (T.refuel fuel) side head batch = probe T side head batch := by
  simp only [probe, factCandidates_refuel]
  rfl

theorem useCandidate_follows (hprove : Paired T fuel F w prove prove') (hs : s.place = w)
    (hacyclic : s.subst.Acyclic) {rel left right : Term} {arity first : Nat} {side : Side}
    {head : String} {batch : Batch} {c : Candidate} {emit emit' : Reduction → Search ρ}
    (hc : Found T s.subst s.hyps first side head batch c) (hfirst : s.ledger.nextVar ≤ first)
    (ht : s.Kept t)
    (hemit : ∀ r u, Emitted T F s (.related rel left right) r u →
      Follows T fuel (emit r) (emit' r) u u.Grown S) :
    Follows T fuel (useCandidate prove (.related rel left right) arity emit c)
      (useCandidate prove' (.related rel left right) arity emit' c) t t.Grown S := by
  have hstart : Course T F s (.related rel left right) [] t := Course.start.keep ht
  have hseen : ∀ x ∈ [c.rel, c.left, c.right, c.witness],
      Seen T s (.related rel left right) [] t x := hc.seen hfirst ht
  simp only [List.forall_mem_cons] at hseen
  obtain ⟨hrel, hleft, hright, hwitness, -⟩ := hseen
  refine (hstart.splitSide_gets hacyclic (fun V hV => (Goal.over_related.1 hV.goal).2.1)
    hleft).follows fun xs t₁ h₁ hxs => ?_
  refine (hxs.1.splitSide_gets hacyclic (fun V hV => (Goal.over_related.1 hV.goal).2.2)
    (hright.later (hxs.1.grown.acyclic hacyclic) h₁ (List.prefix_refl _))).follows
      fun ys t₂ h₂ hys => ?_
  have hacyclic₂ := hys.1.grown.acyclic hacyclic
  have hback : ∀ V, Encloses T s (.related rel left right) V [c.proof] t₂ →
      Encloses T s (.related rel left right) V [] t₂ := fun V hV => { hV with proofs := by simp }
  have hleaf : Course T F s (.related rel left right) [c.proof] t₂ := by
    refine hys.1.leaf c.proof ?_ fun w hw => ?_
    · unfold Candidate.proof
      split <;> rfl
    · have hname : c.proof.witness? = some c.witness := by
        unfold Candidate.proof
        split <;> rfl
      obtain rfl : c.witness = w := by simpa [hname] using hw
      exact hwitness.later hacyclic₂ (h₁.trans h₂) (List.prefix_refl _)
  refine eliminateAll_follows hprove hs hacyclic (e := ⟨c.rel, [c.proof], []⟩)
    ⟨hleaf, fun V hV => ?_, by simp⟩ (fun V hV p hp => ?_) fun e u he => ?_
  · exact hrel.later hacyclic₂ (h₁.trans h₂) (List.prefix_refl _) V (hback V hV)
  · obtain ⟨hx, hy⟩ := List.of_mem_zip hp
    refine ⟨hxs.2 V ?_ _ hx, hys.2 V (hback V hV) _ hy⟩
    exact (hback V hV).of_grown hacyclic₂ h₂ (List.prefix_refl _)
  · refine bridge_follows hprove hs hacyclic he (fun V hV => (Goal.over_related.1 hV).1) ?_
    exact fun e' v he' => hemit _ v ⟨he'.course, he'.subgoals⟩

theorem tryBatches_follows (hle : T.limits.fuel ≤ fuel) (hprove : Paired T fuel F w prove prove')
    (hs : s.place = w) (hacyclic : s.subst.Acyclic) {rel left right : Term} {arity : Nat}
    {side : Side} {head : String} {batches : List Batch} {best : Option Failure}
    {emit emit' : Reduction → Search ρ} (ht : s.Kept t)
    (hemit : ∀ r u, Emitted T F s (.related rel left right) r u →
      Follows T fuel (emit r) (emit' r) u u.Grown S) :
    Follows T fuel
      (tryBatches T prove (.related rel left right) side head arity emit batches best)
      (tryBatches (T.refuel fuel) prove' (.related rel left right) side head arity emit' batches
        best) t t.Grown S := by
  induction batches generalizing t best with
  | nil => exact .failBest .noCandidate
  | cons batch rest ih =>
    simp only [tryBatches, probe_refuel]
    refine probe_gets.follows fun found u _ h => ?_
    obtain ⟨hu, hfound⟩ := h
    rw [ht.subst, ht.hyps] at hfound
    refine tryEach_follows hle (fun c hc v hv => ?_) fun best v hv => ?_
    · exact useCandidate_follows hprove hs hacyclic (hfound c hc) ht.ledger.nextVar
        ((ht.trans hu).trans hv) hemit
    · exact ih ((ht.trans hu).trans hv)

theorem steady_monotone (hle : T.limits.fuel ≤ fuel) (side : Side) :
    Steady T fuel F (.monotone side) := by
  intro w prove prove' hprove ρ name goal emit emit' s S hs hacyclic hemit
  cases goal with
  | subrel lesser greater => exact .noRule
  | related rel left right =>
    refine Follows.subst (Follows.ite (fun _ => .noRule) fun _ => ?_)
    cases hwalk : s.subst.walk (side.pick left right) with
    | app head args => exact tryBatches_follows hle hprove hs hacyclic (.refl s) hemit
    | _ => exact .noCandidate

end Monotonicity
