import Monotonicity.Proofs.Limit.Basic
import Monotonicity.Proofs.Steady.Transport

/-!
# How a transport comes to its plan

A plan is made in two parts. First it is found out which side's value is to be found, what the
relation of the results is, and what the computed value looks like: `Juncture` is what is known
then. Then a case of the relation's scheme is chosen by the computed constructor, and the rest of the
plan is read off that case. `plan_run` says that a plan fails in its first part, for other reasons
than in the second, or goes on from such a juncture.
-/

namespace Monotonicity

open Search

variable {T : Theory} {s t : State} {lifted edge : Fact} {result : Subst → Option Term}
  {c : Computation}

/-- The fact is about functions: what it expects of an edge, and what relates the results at the
given one. -/
inductive Fact.Lifts (lifted edge : Fact) (σ : Subst) : Term → (Subst → Option Term) → Prop
  | dependent {expected family : Term} (h : σ.view lifted.rel = .dependent expected family) :
      lifted.Lifts edge σ expected fun τ => τ.family? family edge.left edge.right edge.witness
  | arrow {expected cod : Term} (h : σ.view lifted.rel = .arrow expected cod) :
      lifted.Lifts edge σ expected fun _ => some cod

/-- What is known when a case of a scheme is to be chosen. -/
structure Juncture where
  /-- The state at that moment. -/
  now : State
  /-- The side whose value is to be found. -/
  derived : Side
  /-- The functions applied to the ends of the edge. -/
  left : Term
  right : Term
  /-- The relation of the results, as it is seen, and its scheme. -/
  relation : Term
  head : String
  args : List Term
  scheme : Scheme
  /-- The computed value. -/
  ctor : String
  known : List Term

namespace Juncture

/-- The application whose value is to be found. -/
def sought (j : Juncture) : Term := j.derived.pick j.left j.right

/-- The application that the computation is about. -/
def settled (j : Juncture) : Term := j.derived.pick j.right j.left

/-- What is registered for the application whose value is to be found, as it stands now. -/
def computed? (T : Theory) (j : Juncture) : Option Term :=
  T.registry.computations.get? (j.now.subst.resolve j.sought)

/-- The constructor of a case on the side whose value is to be found. -/
def found (j : Juncture) (pair : CasePair) : String := j.derived.pick pair.left pair.right

/-- The constructor of a case on the computed side. -/
def given (j : Juncture) (pair : CasePair) : String := j.derived.pick pair.right pair.left

/-- The case that is chosen: the first one with the computed constructor, if it has as many fields as
the computed value. -/
def case? (j : Juncture) : Option CasePair :=
  (j.derived.pick (j.scheme.forRight? j.ctor) (j.scheme.forLeft? j.ctor)).filter
    (·.fields.length = j.known.length)

/-- The fields of both values with the relations of a case, the unknown ones on the side whose value
is to be found. -/
def fields (j : Juncture) (pair : CasePair) (unknown : List Term) : List (FieldRel × Term × Term) :=
  pair.fields.zip (j.derived.pick (unknown.zip j.known) (j.known.zip unknown))

end Juncture

/-- From the state, a plan comes to the juncture. -/
structure Search.Comes (T : Theory) (lifted edge : Fact) (result : Subst → Option Term)
    (c : Computation) (s : State) (j : Juncture) : Prop where
  left : (s.subst.walk lifted.left).extend? [edge.left] = some j.left
  right : (s.subst.walk lifted.right).extend? [edge.right] = some j.right
  derived : (derivedSide c.term j.left j.right).run s = .success j.derived j.now
  relation : result j.now.subst = some j.relation
  view : j.now.subst.view j.relation = .named j.head j.args
  scheme : T.registry.schemes.get? j.head = some j.scheme
  value : j.now.subst.walk c.value = .app j.ctor j.known

/-- The part of a plan that follows a juncture. -/
def Search.settle (T : Theory) (j : Juncture) : Search Plan := do
  let pair ← require j.case? (blocked .noCase)
  let unknown ← freshVars j.known.length
  let value : Term := .app (j.found pair) unknown
  match T.registry.computations.get? ((← subst).resolve j.sought) with
  | some computed => if !(← unify value computed) then blocked .unrelatedValue
  | none => pure ()
  let obligations ← fieldObligations j.relation j.args (j.fields pair unknown)
  return {
    derived := j.derived
    unknown, value
    relation := j.relation
    obligations
    summary := .related j.relation j.left j.right }

/-- What a transport does once the edge's relation is the expected one. -/
def Search.fromEdge (T : Theory) (prove : Prover) (bound liftedId edgeId : Nat) (lifted edge : Fact)
    (result : Subst → Option Term) (c : Computation) (bridged : Option Proof) :
    Search Transported := do
  let p ← plan T lifted edge result c
  discharge prove (arrive bound p) p.obligations
    ([.fact liftedId lifted.witness, .fact edgeId edge.witness] ++ bridged.toList)

/-- The search is refused for this cause, and takes nothing back. -/
def Search.Refused {α : Type} (m : Search α) (s : State) (o : Obstacle) : Prop :=
  ∃ t, s.Grown t ∧ m.run s = .failure (.notTransportable o) t

/-- The placeholders set aside are the next ones, and are then used. -/
theorem reserve_tells {n : Nat} :
    (reserve n).Gets s fun i t => s.Kept t ∧ t.minted = s.minted ∧ i = s.ledger.nextVar ∧
      t.ledger.nextVar = s.ledger.nextVar + n := by
  have hnext : (reserve n).Gets s fun _ t => t.ledger.nextVar = s.ledger.nextVar + n := by
    have hgrown := reserve_gets (s := s) (n := n)
    unfold Gets Ends reserve at hgrown ⊢
    dsimp only at hgrown ⊢
    split
    · next h =>
      rw [h] at hgrown
      split at h <;> cases h
      exact ⟨hgrown.1, rfl⟩
    · next h => split at h <;> cases h
    · trivial
  refine (reserve_gets.and hnext).mono fun i t _ h => ?_
  exact ⟨h.1.1, h.1.2.1, h.1.2.2, h.2⟩

/-- A unification comes back and says whether it succeeded. -/
theorem unify_run (a b : Term) (s : State) :
    ∃ ok t, (Search.unify a b).run s = .success ok t ∧ s.Grown t ∧
      s.subst.unify a b = if ok then some t.subst else none := by
  let counted : State := s.counted fun n => { n with unifications := n.unifications + 1 }
  have hcounted : s.Grown counted := (s.kept_counted fun n => by simp [Stats.le_def]).grown
  have hrun : (Search.unify a b).run s = (assign a b).run counted := rfl
  have hsubst : counted.subst.unify a b = s.subst.unify a b := rfl
  rw [hrun, assign]
  dsimp only
  rw [hsubst]
  cases hunify : s.subst.unify a b with
  | none => exact ⟨false, counted, rfl, hcounted, rfl⟩
  | some τ => exact ⟨true, _, rfl, hcounted.trans (grown_of_unify hunify), rfl⟩

theorem derivedSide_run (term left right : Term) (s : State) :
    (∃ side t, (derivedSide term left right).run s = .success side t ∧ s.Grown t) ∨
      (derivedSide term left right).Refused s .foreignComputation := by
  unfold derivedSide Refused
  obtain ⟨ok, t, hright, ht, -⟩ := unify_run term right s
  obtain ⟨ok', u, hleft, hu, -⟩ := unify_run term left t
  cases ok with
  | true => exact .inl ⟨.left, t, by simp [run_bind, hright], ht⟩
  | false =>
    cases ok' with
    | true => exact .inl ⟨.right, u, by simp [run_bind, hright, hleft], ht.trans hu⟩
    | false => exact .inr ⟨u, ht.trans hu, by simp [run_bind, hright, hleft, blocked, fail]⟩

/-- The computation is about the side whose value is not to be found. -/
theorem derivedSide_gets {term left right : Term} :
    (derivedSide term left right).Gets s fun side t =>
      ∀ σ : Subst, σ.Acyclic → t.subst ≤ σ → σ.resolve term = σ.resolve (side.pick right left) := by
  refine unify_gets.bind fun ok t _ hok => ?_
  cases ok with
  | true => exact .pure fun σ hσ hle => (Subst.unify_gains (hok rfl)).resolve_eq hσ hle
  | false =>
    refine unify_gets.bind fun ok u _ hok => ?_
    cases ok with
    | true => exact .pure fun σ hσ hle => (Subst.unify_gains (hok rfl)).resolve_eq hσ hle
    | false => exact .blocked

theorem Search.Comes.grown {j : Juncture} (h : Comes T lifted edge result c s j) :
    s.Grown j.now :=
  (derivedSide_gets.of_success h.derived).1

/-- A plan is refused before it comes to choose a case, or goes on from a juncture. -/
theorem plan_run (T : Theory) (lifted edge : Fact) (result : Subst → Option Term) (c : Computation)
    (s : State) :
    (∃ o, (plan T lifted edge result c).Refused s o ∧ o ≠ .noCase ∧ o ≠ .unrelatedValue) ∨
      ∃ j, Comes T lifted edge result c s j ∧
        (plan T lifted edge result c).run s = (settle T j).run j.now := by
  have hrefused : ∀ o, o ≠ .noCase → o ≠ .unrelatedValue →
      (plan T lifted edge result c).Refused s o →
      ∃ o, (plan T lifted edge result c).Refused s o ∧ o ≠ .noCase ∧ o ≠ .unrelatedValue :=
    fun o hcase hvalue h => ⟨o, h, hcase, hvalue⟩
  cases hleft : (s.subst.walk lifted.left).extend? [edge.left] with
  | none =>
    refine .inl (hrefused .leftNotApplicable (by simp) (by simp) ⟨s, .refl s, ?_⟩)
    simp only [plan, run_bind, Search.subst, hleft, require, blocked, fail]
  | some left =>
  cases hright : (s.subst.walk lifted.right).extend? [edge.right] with
  | none =>
    refine .inl (hrefused .rightNotApplicable (by simp) (by simp) ⟨s, .refl s, ?_⟩)
    simp only [plan, run_bind, run_pure, Search.subst, hleft, hright, require, blocked, fail]
  | some right =>
  rcases derivedSide_run c.term left right s with ⟨derived, t, hderived, ht⟩ | ⟨t, ht, hforeign⟩
  case inr =>
    refine .inl (hrefused .foreignComputation (by simp) (by simp) ⟨t, ht, ?_⟩)
    simp only [plan, run_bind, run_pure, Search.subst, hleft, hright, require, hforeign]
  cases hrelation : result t.subst with
  | none =>
    refine .inl (hrefused .noFamily (by simp) (by simp) ⟨t, ht, ?_⟩)
    simp only [plan, run_bind, run_pure, Search.subst, hleft, hright, require, hderived, hrelation,
      blocked, fail]
  | some relation =>
  by_cases hnamed : ∃ head args, t.subst.view relation = .named head args
  case neg =>
    refine .inl (hrefused .noRelator (by simp) (by simp) ⟨t, ht, ?_⟩)
    simp only [plan, run_bind, Search.subst, hleft, hright, require, hderived, hrelation, run_pure]
    split
    · next head args hview => exact (hnamed ⟨head, args, hview⟩).elim
    · rfl
  obtain ⟨head, args, hview⟩ := hnamed
  cases hscheme : T.registry.schemes.get? head with
  | none =>
    refine .inl (hrefused .noScheme (by simp) (by simp) ⟨t, ht, ?_⟩)
    simp only [plan, run_bind, run_pure, Search.subst, hleft, hright, require, hderived, hrelation,
      hview, hscheme, blocked, fail]
  | some scheme =>
  by_cases happ : ∃ ctor known, t.subst.walk c.value = .app ctor known
  case neg =>
    refine .inl (hrefused .noValue (by simp) (by simp) ⟨t, ht, ?_⟩)
    simp only [plan, run_bind, Search.subst, hleft, hright, require, hderived, hrelation, run_pure,
      hview, hscheme]
    split
    · next ctor known hwalk => exact (happ ⟨ctor, known, hwalk⟩).elim
    · rfl
  obtain ⟨ctor, known, hwalk⟩ := happ
  refine .inr ⟨⟨t, derived, left, right, relation, head, args, scheme, ctor, known⟩,
    ⟨hleft, hright, hderived, hrelation, hview, hscheme, hwalk⟩, ?_⟩
  simp only [plan, run_bind, Search.subst, hleft, hright, require, hderived, hrelation, run_pure,
    hview, hscheme, hwalk]
  rfl

end Monotonicity
