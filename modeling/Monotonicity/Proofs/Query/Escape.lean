import Monotonicity.Proofs.Query.Observation

/-!
# Where the constants of a search may get to

For a goal that holds at all arguments, the search takes new constants as arguments. Nothing keeps it
from filling a placeholder of the goal by one of them: the fact `R (h ?0 ?0) (c ?1)` proves that an
arrow to `R` relates `h ?0` and `c`, with `?0` filled by the argument that was taken.

What holds is that a goal is proved without filling a placeholder that was not in sight when the goal
was taken up. So a constant that was taken for the proof gets into the value of an older term only
through a placeholder that was in sight, and into none if all that was open and in sight is new
(`Spares`). Another way out is the name of the proof, which may become part of a relation.
-/

namespace Monotonicity

open Search

variable {T : Theory} {s t : State} {goal : Goal} {ps : List Proof} {V : Nat → Prop}

/-! ## What is in sight when a goal is taken up -/

/-- The placeholder occurs in what is registered and used without being renamed. -/
inductive Theory.Exposes (T : Theory) (i : Nat) : Prop
  | fixed {head : String} {scheme : Scheme} {pair : CasePair} {rel : Term}
      (hscheme : T.registry.schemes.get? head = some scheme) (hpair : pair ∈ scheme.cases)
      (hrel : .fixed rel ∈ pair.fields) (hi : i ∈ rel.vars) : T.Exposes i
  | computed {term value : Term} (h : T.registry.computations.get? term = some value)
      (hi : i ∈ value.vars) : T.Exposes i

/-- The placeholders in sight when a goal is taken up: those that the goal, the hypotheses in scope
and what is registered lead to, and those that nobody has yet. -/
inductive Visible (T : Theory) (s : State) (goal : Goal) : Nat → Prop
  | new {i : Nat} (h : s.ledger.nextVar ≤ i) : Visible T s goal i
  | goal {i : Nat} {u : Term} (hu : u ∈ goal.terms) (hi : i ∈ u.vars) : Visible T s goal i
  | hypothesis {i : Nat} {h : Hypothesis} {u : Term} (hh : h ∈ s.hyps)
      (hu : u ∈ [h.rel, h.left, h.right, h.witness]) (hi : i ∈ u.vars) : Visible T s goal i
  | registered {i : Nat} (h : T.Exposes i) : Visible T s goal i
  | bound {i j : Nat} {u : Term} (hi : Visible T s goal i) (hu : s.subst.get? i = some u)
      (hj : j ∈ u.vars) : Visible T s goal j

theorem encloses_visible : Encloses T s goal (Visible T s goal) [] s where
  later _ := .new
  theory :=
    { fixed := fun _ _ hscheme _ hpair _ hrel _ hi =>
        .registered (.fixed hscheme hpair hrel hi)
      computed := fun _ _ h _ hi => .registered (.computed h hi) }
  goal _ hu _ hi := .goal hu hi
  proofs := by simp
  state :=
    { bindings := fun _ _ hi hu _ hj => .bound (Term.over_var.1 hi) hu hj
      hyps := fun _ hh =>
        { rel := fun _ hi => .hypothesis hh (by simp) hi
          left := fun _ hi => .hypothesis hh (by simp) hi
          right := fun _ hi => .hypothesis hh (by simp) hi
          witness := fun _ hi => .hypothesis hh (by simp) hi } }

/-! ## Along courses -/

/-- Whatever set everything in sight is over at the entry, the name of the proof and the state are
over it at the end, and only placeholders of the set were bound. -/
def framed (T : Theory) : Handover := fun s goal p t =>
  ∀ V, Encloses T s goal V [] s →
    p.Over V ∧ t.Over V ∧ ∀ i, ¬ V i → t.subst.get? i = s.subst.get? i

theorem Encloses.snoc {p : Proof} (h : Encloses T s goal V ps t) (hp : p.Over V) :
    Encloses T s goal V (ps ++ [p]) t := by
  refine { h with proofs := fun q hq => ?_ }
  rcases List.mem_append.1 hq with hq | hq
  · exact h.proofs q hq
  · obtain rfl : q = p := by simpa using hq
    exact hp

/-- A goal raised in a course is taken up with nothing new in sight. -/
theorem Encloses.raised {further : List Hypothesis} {g : Goal} (h : Encloses T s goal V ps t)
    (ht : s.Grown t) (hfurther : ∀ h ∈ further, h.Over V) (hg : g.Over V) :
    Encloses T (t.assume further) g V [] (t.assume further) where
  later i hi := h.later i (ht.ledger.nextVar.trans hi)
  theory := h.theory
  goal := hg
  proofs := by simp
  state :=
    { bindings := h.state.bindings
      hyps := fun x hx => (List.mem_append.1 hx).elim (h.state.hyps x) (hfurther x) }

theorem Course.framed (hcourse : Course T (framed T) s goal ps t)
    (hV : Encloses T s goal V [] s) :
    Encloses T s goal V ps t ∧ ∀ i, ¬ V i → t.subst.get? i = s.subst.get? i := by
  induction hcourse with
  | start => exact ⟨hV, fun _ _ => rfl⟩
  | keep before hk ih =>
    refine ⟨{ ih.1 with state := hk.over_iff.2 ih.1.state }, fun i hi => ?_⟩
    rw [hk.subst]
    exact ih.2 i hi
  | unify before ha hb hunify ih =>
    have hconfined := ih.1.state.bindings.unify Term.stable_over (ha V ih.1) (hb V ih.1) hunify
    refine ⟨{ ih.1 with state := ⟨hconfined.within, ih.1.state.hyps⟩ }, fun i hi => ?_⟩
    exact (hconfined.outside i fun h => hi (Term.over_var.1 h)).trans (ih.2 i hi)
  | leaf before p hp hname ih => exact ⟨ih.1.snoc fun w hw => hname w hw V ih.1, ih.2⟩
  | @defer ps t before x ih =>
    have hname : (Proof.deferred t.delayed.length).Over V := by simp [Proof.Over, Proof.witness?]
    have hnext := ih.1.snoc hname
    exact ⟨{ hnext with state := ⟨ih.1.state.bindings, ih.1.state.hyps⟩ }, ih.2⟩
  | prove before further g hfurther hg hgrown hp ih =>
    obtain ⟨hproof, hstate, houtside⟩ :=
      hp V (ih.1.raised before.grown (hfurther V ih.1) (hg V ih.1))
    have hnext := ih.1.snoc hproof
    refine ⟨{ hnext with state := ⟨hstate.bindings, fun x hx => ?_⟩ }, fun i hi => ?_⟩
    · exact hstate.hyps x (List.mem_of_mem_take hx)
    · exact (houtside i hi).trans (ih.2 i hi)

theorem closed_framed : (framed T).Closed T := by
  intro s s₁ t goal rule ps _ _ hk hcourse V hV
  have hstart : Encloses T (s₁.enter (goal.resolve s.subst)) (goal.resolve s.subst) V []
      (s₁.enter (goal.resolve s.subst)) :=
    { later := fun i hi => hV.later i (hk.ledger.nextVar.trans hi)
      theory := hV.theory
      goal := hV.goal.resolve hV.state.bindings
      proofs := by simp
      state := ⟨(hk.over_iff.2 hV.state).bindings, (hk.over_iff.2 hV.state).hyps⟩ }
  obtain ⟨hend, houtside⟩ := hcourse.framed hstart
  refine ⟨Proof.over_step hend.proofs, ⟨hend.state.bindings, hend.state.hyps⟩, fun i hi => ?_⟩
  have hsame : t.subst.get? i = s₁.subst.get? i := houtside i hi
  rw [hk.subst] at hsame
  exact hsame

/-! ## Only what is in sight is filled -/

/-- From the entry at `s` to `t`, placeholders that were not in sight are bound as they were. A name
gets into the value of a term only through a placeholder that was in sight; so if all those that were
open and in sight are new, older terms have the values they had. -/
structure Spares (T : Theory) (s : State) (goal : Goal) (t : State) : Prop where
  bindings : ∀ i, ¬ Visible T s goal i → t.subst.get? i = s.subst.get? i
  names : ∀ (u : Term) (c : String), c ∈ (t.subst.resolve u).symbols →
    c ∉ (s.subst.resolve u).symbols →
    ∃ i ∈ (s.subst.resolve u).vars, Visible T s goal i ∧ c ∈ (t.subst.value i).symbols
  values : ∀ u : Term, (∀ i ∈ (s.subst.resolve u).vars, ¬ Visible T s goal i) →
    t.subst.resolve u = s.subst.resolve u
  older : (∀ i, Visible T s goal i → s.subst.get? i = none → s.ledger.nextVar ≤ i) →
    ∀ u : Term, (∀ i ∈ (s.subst.resolve u).vars, i < s.ledger.nextVar) →
      t.subst.resolve u = s.subst.resolve u

/-- A proof is handed on with nothing filled but what was in sight. -/
def sparing (T : Theory) : Handover := fun s goal _ t => Spares T s goal t

theorem spares_of_framed {p : Proof} (hs : s.subst.Acyclic) (ht : s.Grown t)
    (h : framed T s goal p t) : Spares T s goal t := by
  obtain ⟨-, -, houtside⟩ := h _ encloses_visible
  have hlater := ht.acyclic hs
  have hvalues (u : Term) (hu : ∀ i ∈ (s.subst.resolve u).vars, ¬ Visible T s goal i) :
      t.subst.resolve u = s.subst.resolve u := by
    -- the value of the term at the entry is left alone by the bindings made since
    have hleaves : t.subst.Leaves (s.subst.resolve u) := fun i hi => by
      rw [houtside i (hu i hi)]
      exact hs.leaves_resolve u i hi
    rw [← hlater.resolve_resolve ht.subst u, hleaves.resolve_eq]
  refine ⟨houtside, fun u c hc hnot => ?_, hvalues, fun hopen u hu => ?_⟩
  · rw [← hlater.resolve_resolve ht.subst u, hlater.resolve_eq_subst] at hc
    rcases Term.mem_symbols_subst hc with hc | ⟨i, hi, hc⟩
    · exact (hnot hc).elim
    · refine ⟨i, hi, Classical.byContradiction fun hhidden => ?_, hc⟩
      have hunbound : t.subst.get? i = none := (houtside i hhidden).trans (hs.leaves_resolve u i hi)
      simp [Subst.value_of_unbound hunbound, Term.symbols] at hc
  · refine hvalues u fun i hi hvisible => ?_
    have hnew := hopen i hvisible (hs.leaves_resolve u i hi)
    have hold := hu i hi
    omega

/-! ## Answers -/

theorem mem_insertIndex {i j : Nat} {indices : List Nat} :
    j ∈ Solution.insertIndex i indices ↔ j = i ∨ j ∈ indices := by
  induction indices with
  | nil => simp [Solution.insertIndex]
  | cons k rest ih =>
    unfold Solution.insertIndex
    split
    · simp
    · split
      · next h => simp [h]
      · simp only [List.mem_cons, ih]
        tauto

theorem mem_foldr_insertIndex {j : Nat} {indices : List Nat} :
    j ∈ indices.foldr Solution.insertIndex [] ↔ j ∈ indices := by
  induction indices with
  | nil => simp
  | cons k rest ih => simp [mem_insertIndex, ih]

theorem mem_map_trail {σ : Subst} {i : Nat} :
    i ∈ σ.trail.map Prod.fst ↔ ∃ u, σ.get? i = some u := by
  rw [Subst.get?_eq_lookup, ← Option.isSome_iff_exists, List.lookup_isSome_iff]
  simp

/-- The values listed are those of the bound placeholders below the bound. -/
theorem mem_valuesBelow {σ : Subst} {bound i : Nat} {v : Term} :
    (i, v) ∈ Solution.valuesBelow σ bound ↔
      i < bound ∧ (∃ u, σ.get? i = some u) ∧ v = σ.value i := by
  unfold Solution.valuesBelow
  simp only [List.mem_map, mem_foldr_insertIndex, List.mem_filter, Prod.mk.injEq,
    decide_eq_true_eq]
  constructor
  · rintro ⟨j, ⟨hj, hlt⟩, rfl, rfl⟩
    exact ⟨hlt, mem_map_trail.1 (List.mem_map.2 hj), rfl⟩
  · rintro ⟨hlt, hbound, rfl⟩
    exact ⟨i, ⟨List.mem_map.1 (mem_map_trail.2 hbound), hlt⟩, rfl, rfl⟩

theorem lt_of_schematic? {terms : List Term} {bound i : Nat} {u : Term}
    (h : schematic? terms = some bound) (hu : u ∈ terms) (hi : i ∈ u.vars) : i < bound := by
  unfold schematic? at h
  dsimp only at h
  split at h
  · cases h
    exact Term.lt_boundAll_of_mem hu hi
  · cases h

namespace Engine

variable {E : Engine}

/-- At the start of a query only the goal and what is registered lead to placeholders. -/
theorem visible_start {bound i : Nat} (h : Visible E.theory (E.start bound) goal i)
    (hi : i < bound) : (∃ u ∈ goal.terms, i ∈ u.vars) ∨ E.theory.Exposes i := by
  cases h with
  | new hnew =>
    have hle : bound ≤ i := hnew
    omega
  | goal hu hi => exact .inl ⟨_, hu, hi⟩
  | hypothesis hh hu hi => simp [start] at hh
  | registered hexposed => exact .inr hexposed
  | bound hi hu hj =>
    have hempty := Subst.get?_empty
    simp only [start] at hu
    cases (hempty _).symm.trans hu

theorem search_spares (hE : E.theory.Library) (goal : Goal) (bound : Nat) :
    (E.search goal).Yields (E.start bound) fun _ final =>
      ∀ i, ¬ Visible E.theory (E.start bound) goal i → final.subst.get? i = none := by
  refine hE.yields closed_framed Subst.acyclic_empty fun p t ht hp i hi => ?_
  have hspares := spares_of_framed Subst.acyclic_empty ht hp
  exact (hspares.bindings i hi).trans (Subst.get?_empty i)

/-- The bindings in which a query ends only bind what was in sight at its start. -/
theorem solution_spares (hE : E.theory.Library) {sol : Solution}
    (h : (E.solve goal).1.result = .ok sol) :
    ∃ bound final, sol.bindings = Solution.valuesBelow final bound ∧
      ∀ i, ¬ Visible E.theory (E.start bound) goal i → final.get? i = none := by
  obtain ⟨bound, -, ⟨p, final, hrun, rfl⟩ | ⟨why, final, hrun, rfl⟩⟩ := solve_eq_ok h
  · exact ⟨bound, final.subst, rfl, (search_spares hE goal bound).of_success hrun⟩
  · have hkept := (search_restores hE bound).of_failure hrun
    have hempty : final.subst = .empty := hkept.subst
    refine ⟨bound, final.subst, rfl, fun i _ => ?_⟩
    rw [hempty]
    exact Subst.get?_empty i

/-- An answer of `solve` has values for placeholders of the goal only, and for those of what is
registered and used as it stands. Inside, every proof is handed on with only those placeholders
filled that were in sight when its goal was taken up, so that a name gets out of its scope through
these alone: testing this at every call of the solver makes no difference, whatever the alarm. -/
theorem minted_symbols_confined (hE : E.theory.Library) (alarm : (ρ : Type) → Search ρ) :
    (∀ goal sol, (E.solve goal).1.result = .ok sol → ∀ i v, (i, v) ∈ sol.bindings →
      (∃ w ∈ goal.terms, i ∈ w.vars) ∨ E.theory.Exposes i) ∧
    ∀ goal, E.solveBy (E.observed (sparing E.theory) alarm) goal = E.solve goal := by
  constructor
  · intro goal sol h i v hmem
    obtain ⟨bound, final, hbindings, hspares⟩ := solution_spares hE h
    rw [hbindings] at hmem
    obtain ⟨hlt, ⟨u, hu⟩, -⟩ := mem_valuesBelow.1 hmem
    refine visible_start (Classical.byContradiction fun hhidden => ?_) hlt
    rw [hspares i hhidden] at hu
    cases hu
  · exact fun goal => solveBy_observed hE closed_framed
      (fun _ _ _ _ hs ht hp => spares_of_framed hs ht hp) goal

/-- An engine that was told that `R (h ?0 ?0) (c ?1)`. -/
def withDiagonal : Engine :=
  let told : Option Registry := do
    let (_, r) ← Registry.addFact? {} (.const "R") (.app "h" [.var 0, .var 0]) (.app "c" [.var 1])
      (.const "w")
    return r
  { Engine.new {} with theory := { Theory.standard {} with registry := told.getD {} } }

/-- That an arrow to `R` relates `h ?0` and `c`. -/
def diagonalGoal : Goal :=
  .related (.arrow (.const Reserved.top) (.const "R")) (.app "h" [.var 0]) (.const "c")

/-- No name is marked in the goal or in what is registered, and `?0` is filled by a minted name. -/
theorem withDiagonal_fills_by_minted :
    (∀ u ∈ diagonalGoal.terms, ∀ c ∈ u.symbols, Symbols.isMarked c = false) ∧
    (∀ f ∈ withDiagonal.theory.registry.facts.toList,
      ∀ u ∈ [f.rel, f.left, f.right, f.witness], ∀ c ∈ u.symbols,
        Symbols.isMarked c = false) ∧
    ∃ sol, (withDiagonal.solve diagonalGoal).1.result = .ok sol ∧ sol.isSolved = true ∧
      sol.bindings = [(0, .const (Symbols.minting "x" 0))] ∧
      sol.goal = .related (.arrow (.const Reserved.top) (.const "R"))
        (.app "h" [.const (Symbols.minting "x" 0)]) (.const "c") := by
  refine ⟨by decide +kernel, by decide +kernel, ?_⟩
  have hsolved : (withDiagonal.solve diagonalGoal).1.result.toOption.any
      (fun sol => sol.isSolved &&
        decide (sol.bindings = [(0, .const (Symbols.minting "x" 0))]) &&
        decide (sol.goal = .related (.arrow (.const Reserved.top) (.const "R"))
          (.app "h" [.const (Symbols.minting "x" 0)]) (.const "c"))) = true := by
    decide +kernel
  obtain ⟨sol, hsol, hsolved⟩ := exists_ok_of_any hsolved
  simp only [Bool.and_eq_true, decide_eq_true_eq] at hsolved
  exact ⟨sol, hsol, hsolved.1.1, hsolved.1.2, hsolved.2⟩

/-- The only placeholder that has a value is the goal's own, and no alarm is raised on the way. -/
theorem withDiagonal_confined :
    ∃ sol, (withDiagonal.solveBy (withDiagonal.observed (sparing withDiagonal.theory)
        fun _ => .fail .openWitness) diagonalGoal).1.result = .ok sol ∧
      (0, .const (Symbols.minting "x" 0)) ∈ sol.bindings ∧
      ((∃ w ∈ diagonalGoal.terms, 0 ∈ w.vars) ∨ withDiagonal.theory.Exposes 0) := by
  obtain ⟨hanswer, hobserved⟩ := minted_symbols_confined (E := withDiagonal) (library_standard {})
    fun _ => .fail .openWitness
  rw [hobserved]
  have hsolved : (withDiagonal.solve diagonalGoal).1.result.toOption.any
      (fun sol => sol.bindings.contains (0, .const (Symbols.minting "x" 0))) = true := by
    decide +kernel
  obtain ⟨sol, hsol, hsolved⟩ := exists_ok_of_any hsolved
  have hmem := List.contains_iff_mem.1 hsolved
  exact ⟨sol, hsol, hmem, hanswer diagonalGoal sol hsol 0 _ hmem⟩

end Engine

end Monotonicity
