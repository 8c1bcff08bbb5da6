import Monotonicity.Proofs.Limit.Blame
import Monotonicity.Proofs.Query.Apart
import Monotonicity.Proofs.Query.Obligation
import Monotonicity.Proofs.Substitution.Complete
import Monotonicity.Proofs.Transport.Coherent

/-!
# Transport and the pairs of a scheme

A relator's rule relates two constructor applications if some case of the scheme pairs the two
constructors and has the right number of fields. A transport that knows both values does not look
for such a case: it takes the first one with the computed constructor, and compares what that case
says of the other value with what is registered. So the two agree where the first case with the
computed constructor pairs both values, and need not agree if cases share a constructor.

That a failure is not due to the pairing is known of all failures of a search once it is known of
those that the plan gives, from the states in which the transport does make a plan. Those are read
off the run: it comes to such a state, and the run from the edge on follows.
-/

namespace Monotonicity

open Search

variable {T : Theory} {ρ : Type} {s t : State} {goal : Goal} {B : Failure → Prop}
  {Z : List Event → Prop} {room : Nat}

/-! ## The edge -/

/-- The part of a run in which the search comes to a state of the given kind and goes on from the
edge. -/
def Search.Resumes (k : Option Proof → Search ρ) (G : Option Proof → State → Prop)
    (part : List Event) : Prop :=
  ∃ p t, part = .state t :: (k p).trace t ∧ G p t

theorem Search.FailsFor.imp {m : Search ρ} {Z Z' : List Event → Prop} (h : m.FailsFor B Z s)
    (hZ : ∀ part, part <:+: m.trace s → Z part → Z' part) : m.FailsFor B Z' s := by
  intro why t hrun
  refine (h why t hrun).imp_right ?_
  rintro ⟨part, hpart, hpartZ⟩
  exact ⟨part, hpart, hZ part hpart hpartZ⟩

/-- The last event of a unification that succeeds is the state it leaves. -/
theorem Search.unify_trace {a b : Term} (h : (Search.unify a b).run s = .success true t) :
    ∃ before, (Search.unify a b).trace s = before ++ [.state t] := by
  let counted : State := s.counted fun n => { n with unifications := n.unifications + 1 }
  have hrun : (Search.unify a b).run s = (assign a b).run counted := rfl
  have htrace : (Search.unify a b).trace s = .state counted :: (assign a b).trace counted := rfl
  rw [hrun, assign] at h
  rw [htrace, assign]
  dsimp only at h ⊢
  cases hunify : counted.subst.unify a b with
  | none => simp [hunify] at h
  | some τ =>
    simp only [hunify, Outcome.success.injEq, true_and] at h
    exact ⟨[.state counted], by rw [← h]; rfl⟩

/-- A transport fails at its edge for a mild cause, or for one that what follows the edge gives. Then
the run has this as a part, from a state in which the two relations are unified, if that can be
done. -/
theorem Theory.Library.bridgeEdge_failsFor (h : T.Library) (hB : ∀ why, why.Mild → B why)
    {found wanted : Term} {k : Option Proof → Search ρ} :
    (bridgeEdge (Search.solve T room) found wanted k).FailsFor B
      (Resumes k fun p t => (∀ τ, s.subst.unify found wanted = some τ → t.subst = τ) ∧
        ∃ why u, (k p).run t = .failure why u ∧ ¬ B why) s := by
  obtain ⟨ok, t, hrun, -, hok⟩ := unify_run found wanted s
  cases ok with
  | true =>
    intro why u hfail
    rw [bridgeEdge, run_bind, hrun] at hfail
    refine or_iff_not_imp_left.2 fun hwhy => ?_
    obtain ⟨before, hbefore⟩ := unify_trace hrun
    have htrace : (bridgeEdge (Search.solve T room) found wanted k).trace s =
        before ++ .state t :: (k none).trace t := by
      rw [bridgeEdge, trace_bind, hrun, hbefore, List.append_assoc]
      rfl
    rw [htrace]
    refine ⟨_, (List.suffix_append before _).isInfix, none, t, rfl, fun τ hτ => ?_, why, u, hfail, hwhy⟩
    rw [hok] at hτ
    exact Option.some.inj hτ
  | false =>
    refine .bind Total.unify.failsFor fun ok' t' hrun' => ?_
    rw [hrun] at hrun'
    cases hrun'
    rw [if_neg Bool.false_ne_true]
    refine blames_bridging (fun cross hcross => h.blames_solve hB room hcross) (fun n p => ?_)
      (fun crossed why hwhy => ?_) t
    · intro v why u hfail
      refine or_iff_not_imp_left.2 fun hwhy => ⟨_, List.infix_rfl, some p, _, rfl, fun τ hτ => ?_, why,
        u, hfail, hwhy⟩
      rw [hok] at hτ
      cases hτ
    · split
      · exact fun _ => .fail hwhy
      · exact .of_mild hB .gap

/-! ## The plan -/

/-- New placeholders are filled by any terms over the old ones. -/
theorem Subst.unify_new {σ : Subst} {n : Nat} (hσ : σ.Acyclic) (hover : σ.Over (· < n))
    {head : String} {zs : List Term} (hzs : ∀ z ∈ zs, z.Over (· < n)) :
    ∃ τ, σ.unify (.app head ((List.range' n zs.length).map .var)) (.app head zs) = some τ := by
  let θ : Nat → Term := fun i => if i < n then σ.value i else (zs.getD (i - n) (.var i)).subst σ.value
  have hold : ∀ u : Term, u.Over (· < n) → u.subst θ = u.subst σ.value := fun u hu =>
    Term.subst_congr fun i hi => if_pos (hu i hi)
  have hsolves : σ.Solves θ := by
    intro i u hi
    have hmem := hover _ (mem_trail_of_get? hi)
    rw [hold u hmem.2, ← hσ.solves_value i u hi]
    exact if_pos hmem.1
  have hequal : ((List.range' n zs.length).map Term.var).map (·.subst θ) = zs.map (·.subst θ) := by
    refine List.ext_getElem (by simp) fun i hi hi' => ?_
    have hzi : i < zs.length := by simpa using hi'
    have hnew : θ (n + i) = zs[i].subst σ.value := by simp [θ, hzi]
    simpa [hold _ (hzs _ (List.getElem_mem hzi))] using hnew
  obtain ⟨τ, hτ, -⟩ := unify_complete hσ hsolves (a := .app head ((List.range' n zs.length).map .var))
    (b := .app head zs) (by rw [Term.subst_app, Term.subst_app, hequal])
  exact ⟨τ, hτ⟩

theorem freshVars_tells {n : Nat} :
    (freshVars n).Gets s fun us t => s.Kept t ∧ us = (List.range' s.ledger.nextVar n).map .var := by
  induction n generalizing s with
  | zero => exact .pure ⟨.refl s, rfl⟩
  | succ n ih =>
    have hfirst : freshVar.Gets s fun u t => s.Kept t ∧ u = .var s.ledger.nextVar ∧
        t.ledger.nextVar = s.ledger.nextVar + 1 := by
      refine reserve_tells.bind fun i t _ h => .pure ?_
      exact ⟨h.1, congrArg Term.var h.2.2.1, h.2.2.2⟩
    refine hfirst.bind fun u t _ ht => ih.bind fun us v _ hv => .pure ?_
    obtain ⟨hkept, rfl, hnext⟩ := ht
    obtain ⟨hkept', rfl⟩ := hv
    exact ⟨hkept.trans hkept', by rw [hnext, List.range'_succ, List.map_cons]⟩

/-- The failure is not one of those by which a transport says that two values are not paired. -/
def Failure.NotOfPairing (why : Failure) : Prop :=
  why ≠ .notTransportable .noCase ∧ why ≠ .notTransportable .unrelatedValue

theorem Failure.Mild.notOfPairing {why : Failure} (h : why.Mild) : why.NotOfPairing := by
  constructor
  all_goals
    rintro rfl
    simp [Mild, specificity] at h

namespace Juncture

variable {j : Juncture} {pair : CasePair}

/-- The first case with the computed constructor. -/
def first? (j : Juncture) : Option CasePair :=
  j.derived.pick (j.scheme.forRight? j.ctor) (j.scheme.forLeft? j.ctor)

/-- The case pairs the registered value of the application whose value is to be found with the
computed one. By this the relator's rule relates the two values. -/
structure Pairs (T : Theory) (j : Juncture) (pair : CasePair) : Prop where
  mem : pair ∈ j.scheme.cases
  given : j.given pair = j.ctor
  fields : pair.fields.length = j.known.length
  computed : ∃ zs, j.computed? T = some (.app (j.found pair) zs) ∧ zs.length = j.known.length

/-- If some case has the computed constructor then there is a first one. -/
theorem Pairs.exists_first (h : j.Pairs T pair) : ∃ q, j.first? = some q := by
  have hgiven := h.given
  unfold Juncture.given at hgiven
  unfold first?
  cases hside : j.derived with
  | left =>
    rw [hside] at hgiven
    exact Option.isSome_iff_exists.1 (List.find?_isSome.2 ⟨pair, h.mem, decide_eq_true hgiven⟩)
  | right =>
    rw [hside] at hgiven
    exact Option.isSome_iff_exists.1 (List.find?_isSome.2 ⟨pair, h.mem, decide_eq_true hgiven⟩)

theorem case?_of_first? (h : j.first? = some pair) (hfields : pair.fields.length = j.known.length) :
    j.case? = some pair := by
  have hcase : j.case? = j.first?.filter (·.fields.length = j.known.length) := rfl
  simp [hcase, h, hfields]

end Juncture

theorem fieldObligations_blames {relation : Term} {args : List Term}
    {fields : List (FieldRel × Term × Term)} :
    (fieldObligations relation args fields).Blames Failure.NotOfPairing Z := by
  induction fields with
  | nil => exact fun _ _ _ h => by cases h
  | cons f rest ih =>
    obtain ⟨field, x, y⟩ := f
    refine .bind ?_ fun rel => .bind ih fun goals => fun _ _ _ h => by cases h
    cases field.relation? relation args with
    | some rel => exact fun _ _ _ h => by cases h
    | none => exact fun _ => .fail ⟨by simp, by simp⟩

/-- A plan that has come to a juncture is not given up for the pairing of the values if the first
case with the computed constructor pairs them. -/
theorem settle_failsFor {j : Juncture} {pair : CasePair} (hT : T.Over fun _ => False)
    (hj : j.now.Apart) (hfirst : j.first? = some pair) (hpair : j.Pairs T pair) :
    (settle T j).FailsFor Failure.NotOfPairing Z j.now := by
  obtain ⟨zs, hcomputed, hlength⟩ := hpair.computed
  have hcase := Juncture.case?_of_first? hfirst hpair.fields
  unfold settle
  rw [hcase]
  refine .bind (fun why t h => by cases h) fun q t hrun => ?_
  cases hrun
  refine .bind Total.freshVars.failsFor fun unknown u hrun => ?_
  obtain ⟨hkept, rfl⟩ := (freshVars_tells.of_success hrun).2
  refine .bind Total.subst.failsFor fun σ v hrun => ?_
  cases hrun
  rw [hkept.subst]
  unfold Juncture.computed? at hcomputed
  rw [hcomputed]
  -- the unknown fields are new, and take whatever fields the registered value has
  have hunify : ∃ τ, u.subst.unify (.app (j.found pair)
      ((List.range' j.now.ledger.nextVar j.known.length).map .var)) (.app (j.found pair) zs) =
        some τ := by
    rw [hkept.subst, ← hlength]
    refine Subst.unify_new hj.acyclic hj.only.subst fun z hz => ?_
    have hover := Term.over_app.1 (hT.computed _ _ hcomputed) z hz
    exact hover.mono fun _ h => h.elim
  obtain ⟨τ, hτ⟩ := hunify
  refine .bind Total.unify.failsFor fun ok v hrun => ?_
  obtain ⟨ok', v', hrun', -, hok⟩ := unify_run (.app (j.found pair)
      ((List.range' j.now.ledger.nextVar j.known.length).map .var)) (.app (j.found pair) zs) u
  rw [hrun] at hrun'
  cases hrun'
  cases ok with
  | false => simp [hτ] at hok
  | true => exact .bind (fieldObligations_blames v) fun goals w _ => fun _ _ h => by cases h

section

variable {prove : Prover} {bound liftedId edgeId : Nat} {lifted edge : Fact} {expected : Term}
  {result : Subst → Option Term} {c : Computation} {bridged : Option Proof}

theorem Search.Comes.apart {j : Juncture} (h : Comes T lifted edge result c s j) (hs : s.Apart)
    (hlifted : lifted.Over s.used) (hedge : edge.Over s.used) (hterm : c.term.Over s.used) :
    j.now.Apart := by
  have hleft := (hs.walk hlifted.left).extend? (by simpa using hedge.left) h.left
  have hright := (hs.walk hlifted.right).extend? (by simpa using hedge.right) h.right
  exact ((KeepsApart.derivedSide hs hterm hleft hright).of_success h.derived).1.apart

/-- From the edge on, nothing fails for the pairing of the values if at every juncture the first case
with the computed constructor pairs them. -/
theorem fromEdge_failsFor (hT : T.Over fun _ => False) (hs : s.Apart) (hlifted : lifted.Over s.used)
    (hedge : edge.Over s.used) (hterm : c.term.Over s.used)
    (hfirst : ∀ j, Comes T lifted edge result c s j → ∃ pair, j.first? = some pair ∧ j.Pairs T pair) :
    (fromEdge T prove bound liftedId edgeId lifted edge result c bridged).FailsFor
      Failure.NotOfPairing Z s := by
  refine .bind ?_ fun p t _ => fun why u hrun => ?_
  · intro why t hrun
    rcases plan_run T lifted edge result c s with ⟨o, ⟨u, -, hrefused⟩, ho⟩ | ⟨j, hj, hsettle⟩
    · rw [hrefused] at hrun
      cases hrun
      exact .inl (by simpa [Failure.NotOfPairing] using ho)
    · rw [hsettle] at hrun
      obtain ⟨pair, hpair, hpairs⟩ := hfirst j hj
      exact .inl ((settle_failsFor hT (hj.apart hs hlifted hedge hterm) hpair hpairs).cause hrun)
  · exact .inl ((discharge_onlyLimited arrive_onlyLimited).mild t why u hrun).notOfPairing

/-- A transport that fails for the pairing of the values makes a plan in its run that comes to a
juncture at which they are not paired by the first case with the computed constructor. -/
theorem Theory.Library.carry_failsFor (h : T.Library) (hT : T.Over fun _ => False)
    (hR : T.registry.Bounded) (hs : s.Apart) (hlifted : lifted.Over s.used)
    (hedge : edge.Over s.used) (hterm : c.term.Over s.used) (hvalue : c.value.Over s.used)
    (hexpected : expected.Over s.used)
    (hresult : ∀ t r, s.Leads t → result t.subst = some r → r.Over t.used) :
    (bridgeEdge (Search.solve T room) edge.rel expected
      (fromEdge T (Search.solve T room) bound liftedId edgeId lifted edge result c)).FailsFor
        Failure.NotOfPairing
        (Resumes (fromEdge T (Search.solve T room) bound liftedId edgeId lifted edge result c)
          fun _ t => (∀ τ, s.subst.unify edge.rel expected = some τ → t.subst = τ) ∧
            ∃ j, Comes T lifted edge result c t j ∧
              ¬ ∃ pair, j.first? = some pair ∧ j.Pairs T pair) s := by
  have hprove : Prover.KeepsApart (Search.solve T room) (solveTested T (fun _ => exhausted) room) :=
    .solve (h.keepsApart hT hR) _ _
  have hfacts : ∀ p ∈ [Proof.fact liftedId lifted.witness, .fact edgeId edge.witness],
      p.Over s.used := by
    simpa [Proof.Over, Proof.witness?] using ⟨hlifted.witness, hedge.witness⟩
  have hkeeps : (bridgeEdge (Search.solve T room) edge.rel expected (fromEdge T (Search.solve T room)
      bound liftedId edgeId lifted edge result c)).KeepsApart _ s :=
    .carry hT hprove hs hlifted hedge hterm hvalue hexpected hresult hfacts
  refine (h.bridgeEdge_failsFor fun _ => Failure.Mild.notOfPairing).imp ?_
  rintro part hpart ⟨p, t, rfl, hunified, why, u, hrun, hwhy⟩
  have ht : s.Leads t := hkeeps.leads_of_mem (hpart.subset List.mem_cons_self)
  refine ⟨p, t, rfl, hunified, ?_⟩
  by_contra hnone
  refine hwhy ((fromEdge_failsFor hT ht.apart (hlifted.mono ht.used) (hedge.mono ht.used)
    (hterm.mono ht.used) fun j hj => ?_).cause hrun)
  by_contra hbad
  exact hnone ⟨j, hj, hbad⟩

end

namespace Engine

variable {E : Engine} {lifted edge : Nat} {c : Computation}

/-- A juncture that a transport comes to. The facts are renamed apart, and the run comes to a state
from which it goes on from the edge: in this state the edge's relation is unified with the expected
one, if that can be done, and the plan that is made there comes to the juncture. -/
inductive Meets (E : Engine) (lifted edge : Nat) (c : Computation) : Juncture → Prop
  | comes {f e : Fact} {bound : Nat} {expected : Term} {result : Subst → Option Term}
    {bridged : Option Proof} {t : State} {j : Juncture}
    (hf : E.theory.registry.facts[lifted]? = some f)
    (he : E.theory.registry.facts[edge]? = some e)
    (hbound : schematic? [c.term, c.value] = some bound)
    (hlifts : (f.rename bound).Lifts (e.rename (bound + f.schematic)) .empty expected result)
    (hunified : ∀ τ, Subst.empty.unify (e.rename (bound + f.schematic)).rel expected = some τ →
      t.subst = τ)
    (hpart : .state t :: (fromEdge E.theory (Search.solve E.theory E.theory.limits.maxDepth) bound
        lifted edge (f.rename bound) (e.rename (bound + f.schematic)) result c bridged).trace t <:+:
      (Search.transport E.theory (Search.solve E.theory E.theory.limits.maxDepth) bound lifted edge f
        e c).trace (E.start bound))
    (hcomes : Comes E.theory (f.rename bound) (e.rename (bound + f.schematic)) result c t j) :
    Meets E lifted edge c j

theorem transport_failsFor (hE : E.theory.Library) (hT : E.theory.Over fun _ => False)
    (hR : E.theory.registry.Bounded) {f e : Fact} {bound : Nat}
    (hf : E.theory.registry.facts[lifted]? = some f) (he : E.theory.registry.facts[edge]? = some e)
    (hbound : schematic? [c.term, c.value] = some bound) :
    (Search.transport E.theory (Search.solve E.theory E.theory.limits.maxDepth) bound lifted edge f
      e c).FailsFor Failure.NotOfPairing
      (fun part => ∃ expected result,
        (f.rename bound).Lifts (e.rename (bound + f.schematic)) .empty expected result ∧
        Resumes (fromEdge E.theory (Search.solve E.theory E.theory.limits.maxDepth) bound lifted edge
          (f.rename bound) (e.rename (bound + f.schematic)) result c)
          (fun _ t => (∀ τ, Subst.empty.unify (e.rename (bound + f.schematic)).rel expected = some τ →
              t.subst = τ) ∧
            ∃ j, Comes E.theory (f.rename bound) (e.rename (bound + f.schematic)) result c t j ∧
              ¬ ∃ pair, j.first? = some pair ∧ j.Pairs E.theory pair) part)
      (E.start bound) := by
  have htotal : ∀ f : Fact, (renamed f).Total := fun f => .bind .reserve fun _ => .pure
  refine .bind (htotal f).failsFor fun f' t hrun => .bind (htotal e).failsFor fun e' u hrun' => ?_
  have hlifted := ((KeepsApart.renamed (apart_start bound)
    (hR.facts f (Array.mem_of_getElem? hf))).of_success hrun).2
  obtain ⟨rfl, rfl⟩ := renamed_start hrun
  have hedge := ((KeepsApart.renamed (apart_start (bound + f.schematic))
    (hR.facts e (Array.mem_of_getElem? he))).of_success hrun').2
  obtain ⟨rfl, rfl⟩ := renamed_start hrun'
  have hs := apart_start (E := E) (bound + f.schematic + e.schematic)
  have hlifted := hlifted.mono fun i (hi : i < bound + f.schematic) =>
    (Nat.lt_add_right e.schematic hi : (E.start (bound + f.schematic + e.schematic)).used i)
  have hgiven : ∀ u ∈ [c.term, c.value],
      u.Over (E.start (bound + f.schematic + e.schematic)).used := fun u hu =>
    (over_of_schematic? hbound hu).mono fun i hi =>
      Nat.lt_add_right e.schematic (Nat.lt_add_right f.schematic hi)
  have hterm := hgiven c.term (by simp)
  have hvalue := hgiven c.value (by simp)
  refine .bind Total.subst.failsFor fun σ v hrun => ?_
  cases hrun
  cases hview : (E.start (bound + f.schematic + e.schematic)).subst.view (f.rename bound).rel with
  | dependent expected family =>
    have hexpected := hs.view hlifted.rel hview (u := expected) (by simp [View.parts])
    have hfamily := hs.view hlifted.rel hview (u := family) (by simp [View.parts])
    refine (hE.carry_failsFor hT hR hs hlifted hedge hterm hvalue hexpected fun t r ht hr => ?_).imp
      fun part _ hpart => ⟨expected, _, .dependent hview, hpart⟩
    have hedge := hedge.mono ht.used
    exact ht.apart.only.subst.within.family? (hfamily.mono ht.used) hedge.left hedge.right
      hedge.witness hr
  | arrow expected cod =>
    have hexpected := hs.view hlifted.rel hview (u := expected) (by simp [View.parts])
    have hcod := hs.view hlifted.rel hview (u := cod) (by simp [View.parts])
    refine (hE.carry_failsFor hT hR hs hlifted hedge hterm hvalue hexpected fun t r ht hr => ?_).imp
      fun part _ hpart => ⟨expected, _, .arrow hview, hpart⟩
    cases hr
    exact hcod.mono ht.used
  | _ => exact .fail ⟨by simp, by simp⟩

/-- A transport that ends in an error was told of an unknown fact, or its search failed. -/
theorem transport_eq_error {why : Failure}
    (h : (E.transport lifted edge c).1.result = .ok (.error why)) :
    (∃ id, why = .unknownFact id) ∨
      ∃ f e bound final, E.theory.registry.facts[lifted]? = some f ∧
        E.theory.registry.facts[edge]? = some e ∧ schematic? [c.term, c.value] = some bound ∧
        (Search.transport E.theory (Search.solve E.theory E.theory.limits.maxDepth) bound lifted
          edge f e c).run (E.start bound) = .failure why final := by
  unfold Engine.transport at h
  split at h
  · next f e hf he =>
    unfold query at h
    split at h
    · cases h
    · next bound hbound =>
      dsimp only at h
      split at h
      · cases h
      · next why' final hrun =>
        cases h
        exact .inr ⟨f, e, bound, final, hf, he, hbound, hrun⟩
      · cases h
  · cases h
    exact .inl ⟨_, rfl⟩
  · cases h
    exact .inl ⟨_, rfl⟩

/-- `plan` agrees with the scheme on which values are related. If the value registered for the other
application and the computed one are paired by a case of the scheme, and the first case with the
computed constructor is one that pairs them, then the transport is not refused for want of a case or
because the other value is unrelated. -/
theorem transport_follows_pairs (hE : E.theory.Library) (htold : E.theory.registry.Told)
    (hfixed : ∀ rel ∈ E.theory.registry.fixed, rel.vars = [])
    (hcomputed : ∀ entry ∈ E.theory.registry.computations.entries, entry.2.vars = [])
    (hpairs : ∀ j, E.Meets lifted edge c j → ∃ pair, j.Pairs E.theory pair)
    (hfirst : ∀ j, E.Meets lifted edge c j →
      ∀ pair, j.first? = some pair → j.Pairs E.theory pair) :
    (E.transport lifted edge c).1.result ≠ .ok (.error (.notTransportable .noCase)) ∧
      (E.transport lifted edge c).1.result ≠ .ok (.error (.notTransportable .unrelatedValue)) := by
  have hT := Theory.over_of_ground hfixed hcomputed
  have hmeets : ∀ j, E.Meets lifted edge c j →
      ∃ pair, j.first? = some pair ∧ j.Pairs E.theory pair := by
    intro j hj
    obtain ⟨pair, hpair⟩ := hpairs j hj
    obtain ⟨q, hq⟩ := hpair.exists_first
    exact ⟨q, hq, hfirst j hj q hq⟩
  have hnot : ∀ o, (E.transport lifted edge c).1.result = .ok (.error (.notTransportable o)) →
      (Failure.notTransportable o).NotOfPairing := by
    intro o h
    rcases transport_eq_error h with ⟨id, hid⟩ | ⟨f, e, bound, final, hf, he, hbound, hrun⟩
    · cases hid
    · refine (transport_failsFor hE hT htold.bounded hf he hbound _ _ hrun).resolve_right ?_
      rintro ⟨_, hpart, expected, result, hlifts, p, t, rfl, hunified, j, hcomes, hbad⟩
      exact hbad (hmeets j (.comes hf he hbound hlifts hunified hpart hcomes))
  exact ⟨fun h => (hnot _ h).1 rfl, fun h => (hnot _ h).2 rfl⟩

/-- An engine that was told that `f` and `g` take `P`-related arguments to `T`-related results, that
`P a b`, and that `f a` evaluates to the value. The values that `T` relates are given by the
cases. -/
def withCases (cases : List CasePair) (value : Term) : Engine :=
  let told : Option Registry := do
    let (_, r) ← Registry.addFact? {} (.arrow (.const "P") (.const "T")) (.const "f") (.const "g")
      (.const "fg")
    let (_, r) ← r.addFact? (.const "P") (.const "a") (.const "b") (.const "ab")
    return { r with
      schemes := r.schemes.insert "T" ⟨cases⟩
      computations := r.computations.insert (.app "f" [.const "a"]) value }
  { Engine.new {} with theory := { Theory.standard {} with registry := told.getD {} } }

/-- The only juncture of the transport of `D` as the value of `g b`. -/
theorem withCases_meets {cases : List CasePair} {value : Term} {j : Juncture}
    (h : (withCases cases value).Meets 0 1 ⟨.app "g" [.const "b"], .const "D"⟩ j) :
    j.derived = .left ∧ j.scheme = ⟨cases⟩ ∧ j.ctor = "D" ∧ j.known = [] ∧
      j.computed? (withCases cases value).theory = some value := by
  obtain @⟨f, e, bound, expected, result, _, t, _, hf, he, hbound, hlifts, hunified, -, hcomes⟩ := h
  obtain rfl : _ = f := Option.some.inj hf
  obtain rfl : _ = e := Option.some.inj he
  obtain rfl : 0 = bound := Option.some.inj hbound
  cases hlifts with
  | dependent h => cases h
  | arrow h =>
    cases h
    have ht : t.subst = .empty := hunified .empty rfl
    -- the computation is about the right side, and nothing is bound
    have hright : j.right = .app "g" [.const "b"] := by
      have h := hcomes.right
      rw [ht] at h
      exact (Option.some.inj h).symm
    obtain ⟨ok, u, hrun, -, hok⟩ := unify_run (.app "g" [.const "b"]) j.right t
    rw [ht, hright] at hok
    have hsame : Subst.empty.unify (.app "g" [.const "b"]) (.app "g" [.const "b"]) = some .empty := rfl
    rw [hsame] at hok
    cases ok with
    | false => cases hok
    | true =>
      have hu : u.subst = .empty := (Option.some.inj hok).symm
      have hderived := hcomes.derived
      rw [derivedSide, run_bind, hrun] at hderived
      obtain ⟨hside, hnow⟩ := Outcome.success.inj hderived
      have hnow : j.now.subst = .empty := by rw [← hnow, hu]
      have hrelation : Term.const "T" = j.relation := Option.some.inj hcomes.relation
      have hview := hcomes.view
      rw [hnow, ← hrelation] at hview
      obtain ⟨hhead, -⟩ : "T" = j.head ∧ [] = j.args := View.named.inj hview
      have hscheme := hcomes.scheme
      rw [← hhead] at hscheme
      have hvalue := hcomes.value
      rw [hnow] at hvalue
      obtain ⟨hctor, hknown⟩ : "D" = j.ctor ∧ [] = j.known := Term.app.inj hvalue
      have hleft : Term.app "f" [.const "a"] = j.left := by
        have h := hcomes.left
        rw [ht] at h
        exact Option.some.inj h
      refine ⟨hside.symm, (Option.some.inj hscheme).symm, hctor.symm, hknown.symm, ?_⟩
      rw [Juncture.computed?, Juncture.sought, ← hside, hnow]
      dsimp only [Side.pick]
      rw [← hleft]
      rfl

theorem told_withCases (cases : List CasePair) (value : Term) :
    (withCases cases value).theory.registry.Told := by
  obtain ⟨r, hlifted⟩ : ∃ r, Registry.addFact? {} (.arrow (.const "P") (.const "T")) (.const "f")
      (.const "g") (.const "fg") = some (0, r) := ⟨_, rfl⟩
  obtain ⟨r', hedge⟩ : ∃ r', r.addFact? (.const "P") (.const "a") (.const "b") (.const "ab") =
      some (r.facts.size, r') := ⟨_, rfl⟩
  have hregistry : (withCases cases value).theory.registry = { r' with
      schemes := r'.schemes.insert "T" ⟨cases⟩
      computations := r'.computations.insert (.app "f" [.const "a"]) value } := by
    simp [withCases, hlifted, hedge]
  rw [hregistry]
  exact .declare (.fact (.fact (.start rfl rfl) hlifted) hedge) rfl rfl

/-- `A` goes with `C`, and `B` with `D`. -/
def separateCases : List CasePair := [⟨"A", "C", []⟩, ⟨"B", "D", []⟩]

/-- In the transport with separate cases the value `B` of `f a` and the value `D` of `g b` are paired
by the first case with `D`. -/
theorem withCases_follows_pairs :
    (∀ j, (withCases separateCases (.const "B")).Meets 0 1 ⟨.app "g" [.const "b"], .const "D"⟩ j →
      j.first? = some ⟨"B", "D", []⟩ ∧
      j.Pairs (withCases separateCases (.const "B")).theory ⟨"B", "D", []⟩) ∧
    ((withCases separateCases (.const "B")).transport 0 1
        ⟨.app "g" [.const "b"], .const "D"⟩).1.result ≠
      .ok (.error (.notTransportable .noCase)) ∧
    ((withCases separateCases (.const "B")).transport 0 1
        ⟨.app "g" [.const "b"], .const "D"⟩).1.result ≠
      .ok (.error (.notTransportable .unrelatedValue)) := by
  have hpairs : ∀ j, (withCases separateCases (.const "B")).Meets 0 1
      ⟨.app "g" [.const "b"], .const "D"⟩ j → j.first? = some ⟨"B", "D", []⟩ ∧
        j.Pairs (withCases separateCases (.const "B")).theory ⟨"B", "D", []⟩ := by
    intro j hj
    obtain ⟨hside, hscheme, hctor, hknown, hcomputed⟩ := withCases_meets hj
    constructor
    · rw [Juncture.first?, hside, hscheme, hctor]
      rfl
    · exact {
        mem := by simp [hscheme, separateCases]
        given := by simp [Juncture.given, hside, hctor, Side.pick]
        fields := by simp [hknown]
        computed := ⟨[], by simp [hcomputed, Juncture.found, hside, Side.pick, Term.const],
          by simp [hknown]⟩ }
  refine ⟨hpairs, transport_follows_pairs (library_standard {}) (told_withCases _ _)
    (by decide +kernel) (by decide +kernel) (fun j hj => ⟨_, (hpairs j hj).2⟩)
    fun j hj pair hpair => ?_⟩
  obtain rfl : _ = pair := Option.some.inj ((hpairs j hj).1.symm.trans hpair)
  exact (hpairs j hj).2

/-- If `D` goes with `A` first and then with `B`, the transport says that the value `B` of `f a` is
unrelated to the value `D` of `g b`, although the relator's rule relates the two. If the first case
has a field that `D` lacks, it says that there is no case. And a registered value is not renamed: the
placeholder in `B (s ?0)` is taken for the unknown field of `B`. -/
theorem withCases_misses_pair :
    ((withCases [⟨"A", "D", []⟩, ⟨"B", "D", []⟩] (.const "B")).transport 0 1
        ⟨.app "g" [.const "b"], .const "D"⟩).1.result =
      .ok (.error (.notTransportable .unrelatedValue)) ∧
    (∃ t, (relatorIntro (withCases [⟨"A", "D", []⟩, ⟨"B", "D", []⟩] (.const "B")).theory
        (.related (.const "T") (.const "B") (.const "D"))).run
          ((withCases [⟨"A", "D", []⟩, ⟨"B", "D", []⟩] (.const "B")).start 0) = .success {} t) ∧
    ((withCases [⟨"A", "D", [.recursive]⟩, ⟨"B", "D", []⟩] (.const "B")).transport 0 1
        ⟨.app "g" [.const "b"], .const "D"⟩).1.result =
      .ok (.error (.notTransportable .noCase)) ∧
    ((withCases [⟨"B", "D", [.recursive]⟩] (.app "B" [.app "s" [.var 0]])).transport 0 1
        ⟨.app "g" [.const "b"], .app "D" [.const "d"]⟩).1.result =
      .ok (.error (.notTransportable .unrelatedValue)) := by
  refine ⟨eq_error_of_any ?_, ⟨_, rfl⟩, eq_error_of_any ?_, eq_error_of_any ?_⟩
  · decide +kernel
  · decide +kernel
  · decide +kernel

end Engine

end Monotonicity
