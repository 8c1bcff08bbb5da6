import Monotonicity.Proofs.Calculus.CaseSplit
import Monotonicity.Proofs.CaseSplit.Names
import Monotonicity.Proofs.Query.Observation

/-!
# Splitting into all pairs of arms

If nothing is known of the relation between two scrutinees, any arm of the one may be taken together
with any arm of the other. The split then never fails. It has one case for each pair of a left and a
right arm whose bodies can be applied to the fields of their constructors, over constants that are
new and all different, and all these cases have to be proved (`split_compares_pairs`).

A body that is a placeholder or a case analysis cannot be applied to fields. A pair with such a body
has no case, and what it would have asked for is not proved.
-/

namespace Monotonicity

/-- The body of the arm can be applied to the fields of its constructor. -/
def Arm.applicable (arm : Arm Term) : Bool := arm.arity = 0 || arm.body.asApp?.isSome

theorem Arm.isSome_applyArm? {arm : Arm Term} {fields : List Term}
    (h : fields.length = arm.arity) : (applyArm? arm.body fields).isSome = arm.applicable := by
  unfold applyArm? Arm.applicable
  cases fields with
  | nil =>
    have harity : arm.arity = 0 := by simpa using h.symm
    simp [harity]
  | cons x xs =>
    have harity : arm.arity ≠ 0 := by
      intro h₀
      simp [h₀] at h
    cases hbody : arm.body <;> simp [harity, Term.extend?, Term.asApp?]

/-! ## The cases -/

/-- Under no hypotheses, the case asks that the bodies of two arms be related, each applied to
constants of the given names. -/
structure Case.Compares (rel : Term) (pair : Arm Term × Arm Term)
    (names : List String × List String) (c : Case) : Prop where
  arity : names.1.length = pair.1.arity ∧ names.2.length = pair.2.arity
  hyps : c.hyps = []
  goal : ∃ left right, applyArm? pair.1.body (names.1.map Term.const) = some left ∧
    applyArm? pair.2.body (names.2.map Term.const) = some right ∧ c.goal = .related rel left right

namespace Search

variable {T : Theory} {goal : Goal} {rel scrutinees : Term} {arms arms' : List (Arm Term)}
  {n m : Nat} {pairs : List (Arm Term × Arm Term)} {cases : List Case} {s : State} {ρ : Type}

/-- Both bodies can be applied. -/
def bothApplicable (pair : Arm Term × Arm Term) : Bool := pair.1.applicable && pair.2.applicable

theorem length_allPairs (arms arms' : List (Arm Term)) :
    (allPairs arms arms').length = arms.length * arms'.length := by
  simp [allPairs, List.length_flatMap]

theorem mem_allPairs {arm arm' : Arm Term} (h : (arm, arm') ∈ allPairs arms arms') :
    arm ∈ arms ∧ arm' ∈ arms' := by
  simpa [allPairs] using h

theorem bothApplicable_iff {arm arm' : Arm Term} {xs ys : List Term} (hxs : xs.length = arm.arity)
    (hys : ys.length = arm'.arity) : bothApplicable (arm, arm') = true ↔
      applyArm? arm.body xs ≠ none ∧ applyArm? arm'.body ys ≠ none := by
  rw [bothApplicable, Bool.and_eq_true, ← Arm.isSome_applyArm? hxs, ← Arm.isSome_applyArm? hys]
  simp [Option.isSome_iff_ne_none]

/-- The cases compare the arms of the pairs, in order, over names that are all different and minted
under numbers from `n` on and below `m`. -/
def Covers (rel : Term) (n m : Nat) (pairs : List (Arm Term × Arm Term)) (cases : List Case) :
    Prop :=
  ∃ names : List (List String × List String), names.length = pairs.length ∧
    List.Forall₂ (fun q c => Case.Compares rel q.1 q.2 c) (pairs.zip names) cases ∧
    Symbols.Fresh n m (names.flatMap fun p => p.1 ++ p.2)

theorem Covers.length_eq (h : Covers rel n m pairs cases) : cases.length = pairs.length := by
  obtain ⟨names, hlength, hcases, -⟩ := h
  rw [← hcases.length_eq, List.length_zip, hlength, min_self]

/-- The cases made of pairs of arms are those of the pairs with applicable bodies. -/
theorem covers_of_pairCases (h : PairCases rel n pairs cases m) :
    Covers rel n m (pairs.filter bothApplicable) cases := by
  induction h with
  | nil => exact ⟨[], rfl, .nil, Symbols.fresh_nil⟩
  | @cons n m arm arm' rest left right cases hleft hright _ ih =>
    obtain ⟨names, hlength, hcases, hfresh⟩ := ih
    have hboth : bothApplicable (arm, arm') = true := by
      rw [bothApplicable_iff (length_mintings "x" n _) (length_mintings "y" (n + arm.arity) _),
        hleft, hright]
      simp
    rw [List.filter_cons_of_pos hboth]
    rw [Term.mintings_eq_map] at hleft hright
    refine ⟨(Symbols.mintings "x" n arm.arity, Symbols.mintings "y" (n + arm.arity) arm'.arity)
      :: names, by simp [hlength], .cons ?_ hcases, ?_⟩
    · exact ⟨by simp [Symbols.mintings], rfl, left, right, hleft, hright, rfl⟩
    · exact ((Symbols.fresh_mintings "x" n _).append (Symbols.fresh_mintings "y" _ _)).append hfresh
  | @skip n m arm arm' rest cases hnone _ ih =>
    obtain ⟨names, hlength, hcases, hfresh⟩ := ih
    have hboth : ¬ bothApplicable (arm, arm') = true := by
      rw [bothApplicable_iff (length_mintings "x" n _) (length_mintings "y" (n + arm.arity) _)]
      rintro ⟨hleft, hright⟩
      exact hnone.elim hleft hright
    rw [List.filter_cons_of_neg hboth]
    exact ⟨names, hlength, hcases, hfresh.of_le (by omega)⟩

/-! ## The rule -/

/-- The search has a result. -/
def Succeeds {α : Type} (m : Search α) (s : State) : Prop := ∃ a t, m.run s = .success a t

theorem Succeeds.bind {α β : Type} {m : Search α} {f : α → Search β} (h : m.Succeeds s)
    (hf : ∀ a t, (f a).Succeeds t) : (m >>= f).Succeeds s := by
  obtain ⟨a, t, hm⟩ := h
  obtain ⟨b, u, hrun⟩ := hf a t
  refine ⟨b, u, ?_⟩
  rw [run_bind, hm]
  exact hrun

theorem freshConsts_succeeds (hint : String) (k : Nat) (s : State) :
    (freshConsts hint k).Succeeds s := by
  induction k generalizing s with
  | zero => exact ⟨[], s, rfl⟩
  | succ k ih =>
    have hconst (t : State) : (freshConst hint).Succeeds t := ⟨_, _, rfl⟩
    exact (hconst s).bind fun c t => (ih t).bind fun cs u => ⟨_, _, rfl⟩

theorem pairsSplit_succeeds (rel : Term) (pairs : List (Arm Term × Arm Term)) (s : State) :
    (pairsSplit rel pairs).Succeeds s := by
  induction pairs generalizing s with
  | nil => exact ⟨[], s, rfl⟩
  | cons pair rest ih =>
    obtain ⟨arm, arm'⟩ := pair
    refine (freshConsts_succeeds "x" arm.arity s).bind fun xs t => ?_
    refine (freshConsts_succeeds "y" arm'.arity t).bind fun ys u => ?_
    split
    · exact (ih u).bind fun cases v => ⟨_, _, rfl⟩
    · exact ih u

/-- If nothing is known of the scrutinees, the split has a result. -/
theorem split_succeeds (goal : Goal) (rel : Term) (arms arms' : List (Arm Term))
    (hview : s.subst.view scrutinees ≠ .equality)
    (hscheme : T.schemeFor? s.subst scrutinees = none) :
    (split T goal rel scrutinees arms arms').Succeeds s := by
  have hpairs := pairsSplit_succeeds rel (allPairs arms arms') s
  have hnamed (head : String) (args : List Term) (h : s.subst.view scrutinees = .named head args) :
      T.registry.schemes.get? head = none := by
    simpa [Theory.schemeFor?, h] using hscheme
  have hflip (inner : Term) (head : String) (args : List Term)
      (h : s.subst.view scrutinees = .flip inner) (h' : s.subst.view inner = .named head args) :
      T.registry.schemes.get? head = none := by
    simpa [Theory.schemeFor?, h, h'] using hscheme
  have hsubst : subst.run s = .success s.subst s := rfl
  unfold Succeeds split
  rw [run_bind, hsubst]
  dsimp only
  cases hv : s.subst.view scrutinees with
  | equality => exact (hview hv).elim
  | named head args =>
    dsimp only
    rw [hnamed head args hv]
    exact hpairs
  | flip inner =>
    dsimp only
    cases hi : s.subst.view inner with
    | named head args =>
      dsimp only
      rw [hflip inner head args hv hi]
      exact hpairs
    | _ => exact hpairs
  | _ => exact hpairs

/-- The continuation is handed proofs of all the cases, behind those that were there. -/
theorem proveCases_congr {prove : Prover} {emit emit' : Reduction → Search ρ} {done : List Proof}
    (h : ∀ r : Reduction, r.subgoals = [] → r.premises.length = done.length + cases.length →
      emit r = emit' r) :
    proveCases prove emit cases done = proveCases prove emit' cases done := by
  induction cases generalizing done with
  | nil => exact h _ rfl rfl
  | cons c rest ih =>
    have hk : (fun p => proveCases prove emit rest (done ++ [p])) =
        fun p => proveCases prove emit' rest (done ++ [p]) := by
      funext p
      refine ih fun r hr hlength => h r hr ?_
      simp only [List.length_append, List.length_cons, List.length_nil] at hlength ⊢
      omega
    simp only [proveCases, hk]

/-- Let nothing be known of how the scrutinees are related. Then `all_pairs_split` has a result and
leaves bindings, hypotheses and obligations alone; its cases are, in order, those of the pairs of a
left and a right arm whose bodies can be applied, over new names that are all different; and the
step is made only with a proof of every case, behind that for the scrutinees. If all bodies can be
applied, these are the cases of all pairs. -/
theorem split_compares_pairs (goal : Goal) (rel : Term) (arms arms' : List (Arm Term))
    (hview : s.subst.view scrutinees ≠ .equality)
    (hscheme : T.schemeFor? s.subst scrutinees = none) :
    let pairs := (allPairs arms arms').filter bothApplicable
    (∃ cases t, (split T goal rel scrutinees arms arms').run s = .success cases t ∧ s.Kept t ∧
      Covers rel s.minted t.minted pairs cases ∧
      ∀ (ρ : Type) (prove : Prover) (emit emit' : Reduction → Search ρ) (p : Proof),
        (∀ r, r.subgoals = [] → r.premises.length = 1 + pairs.length → emit r = emit' r) →
        proveCases prove emit cases [p] = proveCases prove emit' cases [p]) ∧
    ((∀ arm ∈ arms ++ arms', arm.applicable = true) →
      pairs = allPairs arms arms' ∧ pairs.length = arms.length * arms'.length) := by
  intro pairs
  constructor
  · obtain ⟨cases, t, hrun⟩ := split_succeeds goal rel arms arms' hview hscheme
    obtain ⟨hkept, hsplits⟩ := (Ends.of_success split_gets hrun).2
    have hcovers : Covers rel s.minted t.minted pairs cases := by
      cases hsplits with
      | aligned h _ => exact (hview h).elim
      | scheme h _ => simp [hscheme] at h
      | pairs _ _ h => exact covers_of_pairCases h
    refine ⟨cases, t, hrun, hkept, hcovers, ?_⟩
    intro ρ prove emit emit' p hemit
    refine proveCases_congr fun r hr hpremises => hemit r hr ?_
    rw [hpremises, hcovers.length_eq, List.length_singleton]
  · intro hall
    have hpairs : pairs = allPairs arms arms' := by
      refine List.filter_eq_self.2 ?_
      rintro ⟨arm, arm'⟩ hpair
      obtain ⟨harm, harm'⟩ := mem_allPairs hpair
      have hleft := hall arm (List.mem_append_left _ harm)
      have hright := hall arm' (List.mem_append_right _ harm')
      simp [bothApplicable, hleft, hright]
    exact ⟨hpairs, hpairs ▸ length_allPairs arms arms'⟩

/-- Of scrutinees related by the converse of `R` nothing is known. There are two pairs, and two
cases. -/
theorem split_compares_under_converse :
    let T := Theory.standard {}
    let s := (Engine.new {}).start 1
    let scrutinees := (Term.const "R").flip
    let arms : List (Arm Term) := [⟨"A", 1, .const "f"⟩, ⟨"B", 0, .var 0⟩]
    let arms' : List (Arm Term) := [⟨"A", 2, .const "g"⟩]
    let goal : Goal := .related (.const "Q") (.cases (.const "u") arms) (.cases (.const "v") arms')
    s.subst.view scrutinees ≠ .equality ∧ T.schemeFor? s.subst scrutinees = none ∧
    ∃ cases t, (split T goal (.const "Q") scrutinees arms arms').run s = .success cases t ∧
      cases.length = 2 := by
  intro T s scrutinees arms arms' goal
  have hview : s.subst.view scrutinees ≠ .equality := by
    have hflip : s.subst.view scrutinees = .flip (.const "R") := rfl
    simp [hflip]
  have hscheme : T.schemeFor? s.subst scrutinees = none := rfl
  obtain ⟨⟨cases, t, hrun, -, hcovers, -⟩, hall⟩ :=
    split_compares_pairs goal (.const "Q") arms arms' hview hscheme
  obtain ⟨-, hcount⟩ := hall (by decide)
  exact ⟨hview, hscheme, cases, t, hrun, hcovers.length_eq.trans hcount⟩

end Search

namespace Engine

/-- An engine that was told that `R` holds between `s` and `t`. -/
def withScrutinees : Engine :=
  let told : Option (Nat × Registry) :=
    Registry.addFact? {} (.const "R") (.const "s") (.const "t") (.const "w")
  { Engine.new {} with theory := { Theory.standard {} with registry := (told.map (·.2)).getD {} } }

/-- The body of the left arm is a placeholder and cannot be applied to the field of its constructor.
Two case analyses of `s` and `t` are then found to be related with no proof about the only pair of
arms, whereas for equal scrutinees the same arms cannot be split. -/
theorem withScrutinees_skips :
    let arms : List (Arm Term) := [⟨"A", 1, .var 0⟩]
    let arms' : List (Arm Term) := [⟨"A", 1, .const "g"⟩]
    let goal : Goal := .related (.const "Q") (.cases (.const "s") arms) (.cases (.const "t") arms')
    arms.length * arms'.length = 1 ∧
    (∃ sol, (withScrutinees.solve goal).1.result = .ok sol ∧
      (sol.verdict matches .solved (.step "destruct" [_])) = true) ∧
    ∃ why t, (Search.split withScrutinees.theory goal (.const "Q") .equality arms arms').run
      (withScrutinees.start 1) = .failure why t := by
  intro arms arms' goal
  refine ⟨rfl, ?_, _, _, rfl⟩
  exact exists_ok_of_any (by decide +kernel)

end Engine

end Monotonicity
