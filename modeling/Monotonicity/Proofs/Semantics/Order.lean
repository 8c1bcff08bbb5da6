import Monotonicity.Proofs.Semantics.Inclusion
import Monotonicity.Proofs.Substitution.Heads

/-!
# Inclusions that an engine proves hold

If neither the registered inclusions nor the goal hold a case analysis or a dependent arrow, then no
placeholder is ever bound to a term that does, as long as only inclusions are searched for. This is
a contract that the rules keep (`keeps_plainOrder`). So what an engine returns for an inclusion is a
derivation of an inclusion between plain relations, all ground instances of which hold.
-/

namespace Monotonicity

open Search

universe u

variable {T : Theory} {s t : State} {goal : Goal} {lesser greater : Term}

/-- The goal is an inclusion between plain relations. -/
def Goal.PlainOrder : Goal → Prop
  | .subrel lesser greater => lesser.Plain ∧ greater.Plain
  | .related _ _ _ => False

/-- The registered inclusions are between plain relations. -/
def Registry.PlainOrder (r : Registry) : Prop :=
  ∀ f ∈ r.inclusions, f.lesser.Plain ∧ f.greater.Plain

/-- Only inclusions between plain relations are asked for, and placeholders are bound to plain terms
only. -/
def plainOrder : Contract where
  inv σ := σ.Acyclic ∧ σ.Built Term.PlainHead
  admits := Goal.PlainOrder
  grants _ _ _ _ _ _ := True
  admits_resolve := by
    rintro σ (_ | ⟨lesser, greater⟩) hσ hgoal
    · exact hgoal
    · exact ⟨hσ.2.resolve hgoal.1, hσ.2.resolve hgoal.2⟩
  grants_resolve _ _ := trivial
  grants_of_le _ _ := trivial
  grants_mono _ _ _ := trivial

/-- The goals for the arguments of a combinator are between arguments of its two uses. -/
theorem plainOrder_of_mem_argumentGoals {arguments : List (Term × Term × Variance)}
    (h : ∀ a b v, (a, b, v) ∈ arguments → a.Plain ∧ b.Plain) :
    ∀ g ∈ argumentGoals arguments, g.PlainOrder := by
  fun_induction argumentGoals arguments with
  | case1 => simp
  | case2 a b rest ih =>
    have hrest := ih fun a b v hmem => h a b v (List.mem_cons_of_mem _ hmem)
    simpa using ⟨h a b _ List.mem_cons_self, hrest⟩
  | case3 a b rest ih =>
    have hrest := ih fun a b v hmem => h a b v (List.mem_cons_of_mem _ hmem)
    simpa using ⟨(h a b _ List.mem_cons_self).symm, hrest⟩
  | case4 a b rest ih => exact ih fun a b v hmem => h a b v (List.mem_cons_of_mem _ hmem)

/-- What the structural rule makes of an inclusion between plain relations is between plain
relations. -/
theorem Search.Structural.plain {υ : Subst} {n m : Nat} {pairs : List (Term × Term)}
    {goals : List Goal} (h : Structural T υ n lesser greater pairs goals m)
    (hleft : (Goal.subrel lesser greater).Left υ) (hl : lesser.Plain) (hg : greater.Plain) :
    (∀ a b, (a, b) ∈ pairs → a.Plain ∧ b.Plain) ∧ ∀ g ∈ goals, g.PlainOrder := by
  obtain ⟨hleft, hright⟩ := Goal.left_subrel.1 hleft
  have hxs : ∀ a ∈ (υ.view lesser).parts, a.Plain := by
    rw [hleft.view_eq]
    exact fun a => Term.Built.of_mem_parts hl
  have hys : ∀ b ∈ (υ.view greater).parts, b.Plain := by
    rw [hright.view_eq]
    exact fun b => Term.Built.of_mem_parts hg
  cases h with
  | arrow h h' => simp_all [View.parts, Goal.PlainOrder]
  | flip h h' => simp_all [View.parts, Goal.PlainOrder]
  | dependent h =>
    rw [hleft.view_eq] at h
    exact (Term.Plain.view_ne_dependent hl _ _ h).elim
  | @named head xs ys variances h h' =>
    rw [h] at hxs
    rw [h'] at hys
    have harguments : ∀ a b v, (a, b, v) ∈ xs.zip (ys.zip variances) → a.Plain ∧ b.Plain := by
      intro a b v hmem
      obtain ⟨ha, hbv⟩ := List.of_mem_zip hmem
      exact ⟨hxs a ha, hys b (List.of_mem_zip hbv).1⟩
    refine ⟨fun a b hab => ?_, plainOrder_of_mem_argumentGoals harguments⟩
    exact harguments a b _ (mem_invariantPairs.1 hab)

/-- A method for inclusions emits, for an inclusion between plain relations, such inclusions only,
and it binds placeholders to plain terms only. -/
theorem ordering_yields {ρ : Type} {prove : Prover} {name : String} {emit : Reduction → Search ρ}
    {S : ρ → State → Prop} {method : Method} (hmethod : method ∈ Method.ordering)
    (hT : T.registry.PlainOrder) (hl : lesser.Plain) (hg : greater.Plain)
    (hleft : (Goal.subrel lesser greater).Left s.subst) (hs : s.subst.Built Term.PlainHead)
    (hemit : ∀ r t, s.Grown t → t.subst.Built Term.PlainHead →
      (∀ g ∈ r.subgoals, g.PlainOrder) → (emit r).Yields t S) :
    (method.run T prove name (.subrel lesser greater) emit).Yields s S := by
  simp only [Method.ordering, List.mem_cons, List.not_mem_nil, or_false] at hmethod
  rcases hmethod with rfl | rfl | rfl | rfl | rfl | rfl
  · refine subrelRefl_gets.yields fun r t ht hr => ?_
    obtain ⟨rfl, ⟨rfl, -⟩ | hunified⟩ := hr
    · exact hemit {} _ ht hs (by simp)
    · exact hemit {} t ht (hunified.built hs (by simp_all [Term.Plain])) (by simp)
  · refine subrelExtremes_gets.yields fun r t ht hr => ?_
    obtain ⟨rfl, rfl, -⟩ := hr
    exact hemit {} _ ht hs (by simp)
  · refine subrelFact_yields fun id f offset t ht hf hunified => ?_
    obtain ⟨hfl, hfg⟩ := hT f (Array.mem_of_getElem? hf)
    have hpairs : ∀ a b, (a, b) ∈ [(lesser, f.lesser.rename offset),
        (greater, f.greater.rename offset)] → a.Plain ∧ b.Plain := by
      intro a b hab
      rcases List.mem_pair.1 hab with heq | heq <;> cases heq
      · exact ⟨hl, hfl.rename offset⟩
      · exact ⟨hg, hfg.rename offset⟩
    exact hemit _ t ht (hunified.built hs hpairs) (by simp)
  · refine subrelStructural_gets.yields fun r t ht hr => ?_
    obtain ⟨pairs, goals, m, rfl, hstruct, -, hunified⟩ := hr
    obtain ⟨hpairs, hgoals⟩ := hstruct.plain hleft hl hg
    exact hemit _ t ht (hunified.built hs hpairs) hgoals
  · refine subrelTrans_yields fun id f offset t ht hf hunified => ?_
    obtain ⟨hfl, hfg⟩ := hT f (Array.mem_of_getElem? hf)
    have hpairs : ∀ a b, (a, b) ∈ [(lesser, f.lesser.rename offset)] → a.Plain ∧ b.Plain := by
      simpa using ⟨hl, hfl.rename offset⟩
    exact hemit _ t ht (hunified.built hs hpairs) (by simpa using ⟨hfg.rename offset, hg⟩)
  · refine deferUnsolved_gets.yields fun r t ht hr => ?_
    obtain ⟨-, rfl, hsubst, -⟩ := hr
    exact hemit _ t ht (hsubst ▸ hs) (by simp)

theorem keeps_plainOrder (hlib : T.Library) (hT : T.registry.PlainOrder) {rule : Rule}
    (hrule : rule ∈ T.rules) : plainOrder.Keeps T rule := by
  intro prove hprove ρ goal k s S hfits hleft hinv hgoal hk
  cases goal with
  | related rel left right => exact hgoal.elim
  | subrel lesser greater =>
    refine ordering_yields (hlib.mem_ordering hrule hfits) hT hgoal.1 hgoal.2 (hleft hinv.1) hinv.2
      fun r t ht hbuilt hgoals => ?_
    refine hprove.proveAll ⟨ht.acyclic hinv.1, hbuilt⟩ hgoals fun ps u hu hinv' _ => ?_
    exact hk _ u ⟨ht.trans hu, hinv', trivial⟩

namespace Engine

variable {E : Engine} {sol : Solution}

/-- A search for an inclusion between plain relations ends with plain terms bound. -/
theorem search_plain (hE : E.theory.Library) (hplain : E.theory.registry.PlainOrder)
    (hgoal : goal.PlainOrder) (bound : Nat) :
    (E.search goal).Restores (E.start bound) fun _ final => final.subst.Built Term.PlainHead :=
  Contract.met_solve (fun _ hrule => keeps_plainOrder hE hplain hrule) _
    ⟨Subst.acyclic_empty, Subst.built_empty⟩ hgoal fun _ _ ht => ht.inv.2

/-- If `solve` proves an inclusion, then all ground instances of the inclusion that it returns hold
in every interpretation that respects the reserved relations, the declared variances and the
registered inclusions. Neither the registered inclusions nor the goal may hold a case analysis or a
dependent arrow. -/
theorem solved_inclusion_holds (hE : E.theory.Library) (hplain : E.theory.registry.PlainOrder)
    (hl : lesser.Plain) (hg : greater.Plain)
    (h : (E.solve (.subrel lesser greater)).1.result = .ok sol) (hsolved : sol.isSolved = true) :
    ∃ filled : Nat → Term,
      sol.goal = .subrel (lesser.subst filled) (greater.subst filled) ∧
      ∀ M : Interpretation.{u}, M.Orders E.theory.registry → ∀ θ, Grounding θ →
        M.Includes ((lesser.subst filled).subst θ) ((greater.subst filled).subst θ) := by
  obtain ⟨bound, p, final, hrun, hgoal, hσ, hderives⟩ := derives_of_solved hE h hsolved
  have hasked : (Goal.subrel lesser greater).PlainOrder := ⟨hl, hg⟩
  have hbuilt : final.subst.Built Term.PlainHead :=
    (search_plain hE hplain hasked bound).of_success hrun
  refine ⟨final.subst.value, ?_, fun M hM θ hθ => ?_⟩
  · rw [hgoal, ← hσ.resolve_eq_subst, ← hσ.resolve_eq_subst]
    rfl
  · rw [← hσ.resolve_eq_subst, ← hσ.resolve_eq_subst]
    refine hderives.includes hE hM hσ hθ ?_ (hbuilt.resolve hl) (hbuilt.resolve hg)
    exact fun f hf offset => hbuilt.resolve ((hplain f hf).2.rename offset)

/-- An engine that was told of `strict` that it narrows its argument down, and of `pair` how it goes
along with its arguments. -/
def withStrict : Engine :=
  { Engine.new {} with
    theory := { Theory.standard {} with
      registry :=
        { inclusions := #[⟨.app "strict" [.var 0], .var 0, .const "strict_le", 1⟩]
          variances := ⟨[("pair", [.covariant, .invariant])]⟩ } } }

theorem numbers_orders_withStrict : Interpretation.numbers.Orders withStrict.theory.registry := by
  apply Interpretation.numbers_orders
  · intro head variances hv xs ys hlen hlen' hargs
    obtain ⟨rfl, rfl⟩ : "pair" = head ∧ [Variance.covariant, .invariant] = variances := by
      simpa [withStrict, Table.get?, Table.find] using hv
    obtain ⟨a, b, rfl⟩ := List.length_eq_two.1 hlen'.symm
    obtain ⟨a', b', rfl⟩ := List.length_eq_two.1 hlen.symm
    have ha : Interpretation.numbers.Includes a a' := hargs a a' .covariant (by simp)
    exact fun x y hxy => ⟨ha x y hxy.1, hxy.2⟩
  · intro f hf θ x y hxy
    obtain rfl : f = ⟨.app "strict" [.var 0], .var 0, .const "strict_le", 1⟩ := by
      simpa [withStrict] using hf
    exact hxy.1

/-- The inclusion is filled in and holds of numbers. -/
theorem withStrict_inclusion_holds :
    ∃ sol, (withStrict.solve (.subrel
        (.arrow (.const "lt") (.app "pair" [.app "strict" [.const "lt"], .var 0]))
        (.arrow (.app "strict" [.const "lt"])
          (.app "pair" [.const "lt", .app "strict" [.const "le"]])))).1.result = .ok sol ∧
      sol.isSolved = true ∧ sol.bindings = [(0, .app "strict" [.const "le"])] ∧
      Interpretation.numbers.Includes
        (.arrow (.const "lt")
          (.app "pair" [.app "strict" [.const "lt"], .app "strict" [.const "le"]]))
        (.arrow (.app "strict" [.const "lt"])
          (.app "pair" [.const "lt", .app "strict" [.const "le"]])) := by
  have hsolved : (match (withStrict.solve (.subrel
      (.arrow (.const "lt") (.app "pair" [.app "strict" [.const "lt"], .var 0]))
      (.arrow (.app "strict" [.const "lt"])
        (.app "pair" [.const "lt", .app "strict" [.const "le"]])))).1.result with
    | .ok sol => sol.isSolved && decide (sol.bindings = [(0, .app "strict" [.const "le"])]) &&
        decide (sol.goal = .subrel
          (.arrow (.const "lt")
            (.app "pair" [.app "strict" [.const "lt"], .app "strict" [.const "le"]]))
          (.arrow (.app "strict" [.const "lt"])
            (.app "pair" [.const "lt", .app "strict" [.const "le"]])))
    | .error _ => false) = true := by
    decide +kernel
  split at hsolved
  · next sol hsol =>
    simp only [Bool.and_eq_true, decide_eq_true_eq] at hsolved
    obtain ⟨⟨hs, hbindings⟩, hgoal⟩ := hsolved
    obtain ⟨filled, hfilled, hholds⟩ := solved_inclusion_holds (library_standard {})
      (by unfold Registry.PlainOrder; decide +kernel) (by decide +kernel) (by decide +kernel)
      hsol hs
    rw [hgoal, Goal.subrel.injEq] at hfilled
    have hnumbers := hholds _ numbers_orders_withStrict (fun _ => .equality)
      fun _ => by simp [Term.equality]
    rw [← hfilled.1, ← hfilled.2, Term.subst_of_ground _ _ (by simp [Term.arrow]),
      Term.subst_of_ground _ _ (by simp [Term.arrow])] at hnumbers
    exact ⟨sol, hsol, hs, hbindings, hnumbers⟩
  · cases hsolved

end Engine

end Monotonicity
