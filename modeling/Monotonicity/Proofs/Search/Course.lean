import Monotonicity.Proofs.Relation.Within
import Monotonicity.Proofs.Search.Ends

/-!
# The course of a rule's application

What the application of a rule may do on its way to a proof, without the ways that came to nothing:
count on in the ledger, unify terms, use a leaf, put a goal off, and have a goal proved under further
hypotheses. `Course` lists the proofs used in this order. The terms that are unified and the goals
that are raised are in sight: their placeholders are those that the goal, the bindings, the
hypotheses, the names of the proofs used and the theory lead to, and new ones.

What a prover hands on is described by a relation between the state in which it took up the goal and
the one in which it hands on the proof. If the relation holds of the proof of every course, it holds
of all proofs of the solver, so that properties of these are proved along courses.
-/

namespace Monotonicity

open Search

/-- What is known of a proof of a goal that was taken up at the first state, when the proof is
handed on at the second. -/
abbrev Handover : Type := State → Goal → Proof → State → Prop

/-! ## What is in sight -/

/-- Only placeholders of the set occur in the goal. -/
def Goal.Over (V : Nat → Prop) (goal : Goal) : Prop := ∀ t ∈ goal.terms, t.Over V

/-- Only placeholders of the set occur in the hypothesis and its name. -/
structure Hypothesis.Over (V : Nat → Prop) (h : Hypothesis) : Prop where
  rel : h.rel.Over V
  left : h.left.Over V
  right : h.right.Over V
  witness : h.witness.Over V

/-- Only placeholders of the set occur in the name of the proof. -/
def Proof.Over (V : Nat → Prop) (p : Proof) : Prop := ∀ w, p.witness? = some w → w.Over V

/-- Only placeholders of the set occur in what is registered and used as it stands: the fixed
relations of schemes and the values of computations. All else is renamed when it is used. -/
structure Theory.Over (V : Nat → Prop) (T : Theory) : Prop where
  fixed : ∀ head scheme, T.registry.schemes.get? head = some scheme → ∀ pair ∈ scheme.cases,
    ∀ rel, .fixed rel ∈ pair.fields → rel.Over V
  computed : ∀ term value, T.registry.computations.get? term = some value → value.Over V

/-- The bindings of placeholders of the set and the hypotheses do not lead out of it. -/
structure State.Over (V : Nat → Prop) (s : State) : Prop where
  bindings : s.subst.Within (Term.Over V)
  hyps : ∀ h ∈ s.hyps, h.Over V

variable {T : Theory} {F : Handover} {s t u : State} {goal g : Goal} {p : Proof}
  {ps qs : List Proof} {V : Nat → Prop} {a b : Term}

@[simp] theorem Goal.over_related {rel left right : Term} :
    (Goal.related rel left right).Over V ↔ rel.Over V ∧ left.Over V ∧ right.Over V := by
  simp [Goal.Over, Goal.terms]

@[simp] theorem Goal.over_subrel {lesser greater : Term} :
    (Goal.subrel lesser greater).Over V ↔ lesser.Over V ∧ greater.Over V := by
  simp [Goal.Over, Goal.terms]

@[simp] theorem Term.over_minting (hint : String) (n : Nat) : (Term.minting hint n).Over V := by
  simp [Term.minting]

/-- A step is named by a premise or not at all. -/
theorem Proof.over_step {rule : String} (h : ∀ p ∈ ps, p.Over V) :
    (Proof.step rule ps).Over V := by
  intro w hw
  unfold Proof.witness? at hw
  split at hw
  · cases ‹Proof.step rule ps = _›
  · cases ‹Proof.step rule ps = _›
  · next rule' p heq =>
    cases heq
    exact h p (by simp) w hw
  · cases hw

theorem Goal.Over.resolve (h : goal.Over V) (hs : s.subst.Within (Term.Over V)) :
    (goal.resolve s.subst).Over V := by
  cases goal with
  | related rel left right =>
    obtain ⟨hrel, hleft, hright⟩ := Goal.over_related.1 h
    exact Goal.over_related.2 ⟨hs.resolve Term.stable_over hrel,
      hs.resolve Term.stable_over hleft, hs.resolve Term.stable_over hright⟩
  | subrel lesser greater =>
    obtain ⟨hlesser, hgreater⟩ := Goal.over_subrel.1 h
    exact Goal.over_subrel.2
      ⟨hs.resolve Term.stable_over hlesser, hs.resolve Term.stable_over hgreater⟩

theorem State.Kept.over_iff (h : s.Kept t) : t.Over V ↔ s.Over V := by
  constructor
  · exact fun ht => ⟨h.subst ▸ ht.bindings, h.hyps ▸ ht.hyps⟩
  · exact fun hs => ⟨h.subst ▸ hs.bindings, h.hyps ▸ hs.hyps⟩

/-- Nothing that is there earlier leads further. -/
theorem State.Over.of_grown (h : t.Over V) (ht : t.subst.Acyclic) (hs : s.Grown t) : s.Over V where
  bindings := h.bindings.of_le ht.nodup hs.subst
  hyps := hs.hyps ▸ h.hyps

/-- A set of placeholders that everything in sight is over: the goal taken up at `s`, the names of
the proofs used so far, and the state at hand. New placeholders are in it. -/
structure Encloses (T : Theory) (s : State) (goal : Goal) (V : Nat → Prop) (ps : List Proof)
    (t : State) : Prop where
  later : ∀ i, s.ledger.nextVar ≤ i → V i
  theory : T.Over V
  goal : goal.Over V
  proofs : ∀ p ∈ ps, p.Over V
  state : t.Over V

/-- The term is in sight: it is over every set that all the rest is over. -/
def Seen (T : Theory) (s : State) (goal : Goal) (ps : List Proof) (t : State) (u : Term) : Prop :=
  ∀ V, Encloses T s goal V ps t → u.Over V

theorem Encloses.of_grown (h : Encloses T s goal V qs u) (hu : u.subst.Acyclic) (ht : t.Grown u)
    (hps : ps <+: qs) : Encloses T s goal V ps t where
  later := h.later
  theory := h.theory
  goal := h.goal
  proofs p hp := h.proofs p (hps.subset hp)
  state := h.state.of_grown hu ht

theorem Encloses.of_kept (h : Encloses T s goal V ps u) (ht : t.Kept u) :
    Encloses T s goal V ps t :=
  { h with state := ht.over_iff.1 h.state }

/-- What was in sight stays so. -/
theorem Seen.later (h : Seen T s goal ps t a) (hu : u.subst.Acyclic) (ht : t.Grown u)
    (hps : ps <+: qs) : Seen T s goal qs u a :=
  fun V hV => h V (hV.of_grown hu ht hps)

/-- What is renamed to new placeholders is in sight. -/
theorem Encloses.rename {offset : Nat} (h : Encloses T s goal V ps t) (a : Term)
    (hoffset : s.ledger.nextVar ≤ offset) : (a.rename offset).Over V :=
  Term.over_rename fun i hi => h.later i (hoffset.trans hi)

/-- The parts that are seen of a relation in sight are in sight. -/
theorem Encloses.view {v : View} (h : Encloses T s goal V ps t) (ha : a.Over V)
    (hv : t.subst.view a = v) (hb : b ∈ v.parts) : b.Over V :=
  h.state.bindings.of_mem_parts Term.stable_over ha (hv ▸ hb)

/-! ## Courses -/

/-- What may happen after a goal was taken up at `s`: the proofs used so far, and the state that has
been reached. -/
inductive Course (T : Theory) (F : Handover) (s : State) (goal : Goal) :
    List Proof → State → Prop
  | start : Course T F s goal [] s
  | keep {ps : List Proof} {t u : State} (before : Course T F s goal ps t) (h : t.Kept u) :
      Course T F s goal ps u
  | unify {ps : List Proof} {t : State} {a b : Term} {τ : Subst}
      (before : Course T F s goal ps t) (ha : Seen T s goal ps t a) (hb : Seen T s goal ps t b)
      (h : t.subst.unify a b = some τ) :
      Course T F s goal ps { t with subst := τ }
  | leaf {ps : List Proof} {t : State} (before : Course T F s goal ps t) (p : Proof)
      (hp : p.deferrals = []) (hname : ∀ w, p.witness? = some w → Seen T s goal ps t w) :
      Course T F s goal (ps ++ [p]) t
  | defer {ps : List Proof} {t : State} (before : Course T F s goal ps t) (x : Pending) :
      Course T F s goal (ps ++ [.deferred t.delayed.length])
        { t with delayed := t.delayed ++ [x] }
  | prove {ps : List Proof} {t u : State} {p : Proof} (before : Course T F s goal ps t)
      (further : List Hypothesis) (g : Goal)
      (hfurther : ∀ V, Encloses T s goal V ps t → ∀ h ∈ further, h.Over V)
      (hg : ∀ V, Encloses T s goal V ps t → g.Over V) (hgrown : (t.assume further).Grown u)
      (hp : F (t.assume further) g p u) :
      Course T F s goal (ps ++ [p]) (u.withdraw t.hyps.length)

theorem grown_of_unify {τ : Subst} (h : s.subst.unify a b = some τ) :
    s.Grown { s with subst := τ } :=
  have hg := Subst.unify_gains h
  ⟨hg.le, hg.acyclic, rfl, List.prefix_refl _, rfl, rfl, .refl _⟩

theorem grown_of_defer (s : State) (x : Pending) :
    s.Grown { s with delayed := s.delayed ++ [x] } :=
  ⟨Subst.le_refl _, id, rfl, List.prefix_append .., rfl, rfl, .refl _⟩

theorem Course.grown (h : Course T F s goal ps t) : s.Grown t := by
  induction h with
  | start => exact .refl s
  | keep before h ih => exact ih.trans h.grown
  | unify before ha hb h ih => exact ih.trans (grown_of_unify h)
  | leaf before p hp hname ih => exact ih
  | defer before x ih => exact ih.trans (grown_of_defer _ x)
  | prove before further g hfurther hg hgrown hp ih => exact ih.trans hgrown.of_assume

/-- What a rule makes of the goal in a course: the premises are the proofs used, and the subgoals are
in sight. -/
structure Emitted (T : Theory) (F : Handover) (s : State) (goal : Goal) (r : Reduction)
    (t : State) : Prop where
  course : Course T F s goal r.premises t
  subgoals : ∀ V, Encloses T s goal V r.premises t → ∀ g ∈ r.subgoals, g.Over V

/-- A rule is done at once. -/
theorem emitted_start : Emitted T F s goal {} s := ⟨.start, by simp⟩

/-- Whether or not two terms in sight can be unified, it is a step of a course. -/
theorem Course.unify_gets (hcourse : Course T F s goal ps t) (ha : Seen T s goal ps t a)
    (hb : Seen T s goal ps t b) : (Search.unify a b).Gets t fun _ u => Course T F s goal ps u := by
  refine (count_gets fun n => by simp [Stats.le_def]).bind fun _ u _ h => ?_
  have hk := hcourse.keep h.1
  unfold Gets Ends assign
  dsimp only
  cases hunify : u.subst.unify a b with
  | none => exact ⟨.refl u, hk⟩
  | some τ =>
    refine ⟨grown_of_unify hunify, hk.unify ?_ ?_ hunify⟩
    · exact fun V hV => ha V (hV.of_kept h.1)
    · exact fun V hV => hb V (hV.of_kept h.1)

/-- Putting a goal off is a step of a course. -/
theorem Course.defer_gets (hcourse : Course T F s goal ps t) :
    (Search.defer g).Gets t fun p u => Course T F s goal (ps ++ [p]) u := by
  refine (count_gets fun n => by simp [Stats.le_def]).bind fun _ u _ hu => ?_
  exact ⟨grown_of_defer u _, (hcourse.keep hu.1).defer _⟩

/-- The relation holds of the proof of every course. -/
def Handover.Closed (T : Theory) (F : Handover) : Prop :=
  ∀ ⦃s s₁ t : State⦄ ⦃goal : Goal⦄ ⦃rule : Rule⦄ ⦃ps : List Proof⦄, rule ∈ T.rules →
    s.subst.Acyclic → s.Kept s₁ →
    Course T F (s₁.enter (goal.resolve s.subst)) (goal.resolve s.subst) ps t →
    F s goal (.step rule.name ps) t.leave

/-- Nothing is asked of a proof beyond its being handed on. -/
theorem closed_true : Handover.Closed T fun _ _ _ _ => True :=
  fun _ _ _ _ _ _ _ _ _ _ => trivial

end Monotonicity
