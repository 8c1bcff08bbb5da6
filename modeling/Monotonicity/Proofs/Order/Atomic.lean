import Mathlib.Logic.Relation
import Monotonicity.Proofs.Limit.Calm
import Monotonicity.Proofs.Order.Sound

/-!
# Inclusions between constants

If all registered inclusions are between constants then they are the edges of a graph, and an
inclusion between constants has a derivation if and only if its greater side, or the empty relation,
can be reached from its lesser side, or its greater side is the full relation
(`derivable_const_iff`). The graph may have cycles.

All goals of a search for such an inclusion have the same greater side, and their lesser sides are
the one asked for and greater sides of registered inclusions. No goal is in progress twice, so there
are never more goals in progress than registered inclusions and one (`solve_const_calm`). If there
is room for one goal more, then no depth is refused: the search says whether the greater side can be
reached, as long as it has steps to go on.
-/

namespace Monotonicity

open Search

/-- All registered inclusions are between constants. -/
def Registry.Atomic (r : Registry) : Prop :=
  ∀ f ∈ r.inclusions, ∃ a b, f.lesser = .const a ∧ f.greater = .const b

/-- An inclusion of the first constant in the second is registered. -/
def Registry.Edge (r : Registry) (a b : String) : Prop :=
  ∃ f ∈ r.inclusions, f.lesser = .const a ∧ f.greater = .const b

/-- The second constant is reached from the first by zero or more registered inclusions. -/
def Registry.Reaches (r : Registry) : String → String → Prop := Relation.ReflTransGen r.Edge

variable {r : Registry} {T : Theory} {a b x y : String} {n : Nat}

/-! ## Derivations -/

namespace Term

theorem plainGround_const (a : String) : (const a).PlainGround where
  ground := by simp
  plain := by simp [Plain, PlainHead]

theorem view_const (a : String) :
    (const a).view = if a = Reserved.equality then .equality else if a = Reserved.top then .top
      else if a = Reserved.bottom then .bottom else .named a [] := rfl

theorem view_const_eq_top : (const a).view = .top ↔ a = Reserved.top := by
  rw [view_const]
  split_ifs with h₁ h₂ h₃ <;> simp_all [Reserved.equality, Reserved.top]

theorem view_const_eq_bottom : (const a).view = .bottom ↔ a = Reserved.bottom := by
  rw [view_const]
  split_ifs with h₁ h₂ h₃ <;> simp_all [Reserved.equality, Reserved.top, Reserved.bottom]

theorem view_const_inj : (const a).view = (const b).view ↔ a = b := by
  refine ⟨fun h => ?_, fun h => h ▸ rfl⟩
  rw [view_const, view_const] at h
  split_ifs at h <;> simp_all

theorem eq_of_view_const {head : String} {xs : List Term} (h : (const a).view = .named head xs) :
    head = a ∧ xs = [] := by
  rw [view_const] at h
  split_ifs at h
  simpa [eq_comm] using h

end Term

theorem groundOrder_const (a b : String) : (Goal.subrel (.const a) (.const b)).GroundOrder :=
  ⟨Term.plainGround_const a, Term.plainGround_const b⟩

/-- A derivation of an inclusion between constants goes along registered inclusions. -/
theorem Included.reaches (hr : r.Atomic) (h : Included r n (.const a) (.const b)) :
    b = Reserved.top ∨ r.Reaches a b ∨ r.Reaches a Reserved.bottom := by
  generalize hlesser : Term.const a = lesser at h
  generalize hgreater : Term.const b = greater at h
  induction h generalizing a with
  | same h =>
    subst hlesser hgreater
    rw [Term.view_const_inj] at h
    subst h
    exact .inr (.inl .refl)
  | extreme h =>
    subst hlesser hgreater
    rw [Term.view_const_eq_top, Term.view_const_eq_bottom] at h
    rcases h with htop | hbottom
    · exact .inl htop
    · subst hbottom
      exact .inr (.inr .refl)
  | @through n greater f hf _ ih =>
    obtain ⟨-, c, -, hc⟩ := hr f hf
    have hedge : r.Edge a c := ⟨f, hf, hlesser.symm, hc⟩
    rcases ih hc.symm hgreater with htop | hreach | hreach
    · exact .inl htop
    · exact .inr (.inl (.head hedge hreach))
    · exact .inr (.inr (.head hedge hreach))
  | arrow hl =>
    subst hlesser
    rw [Term.view_const] at hl
    split_ifs at hl
  | flip hl =>
    subst hlesser
    rw [Term.view_const] at hl
    split_ifs at hl
  | named hl hg =>
    subst hlesser hgreater
    obtain ⟨rfl, -⟩ := Term.eq_of_view_const hl
    obtain ⟨rfl, -⟩ := Term.eq_of_view_const hg
    exact .inr (.inl .refl)

/-- An inclusion between constants has a derivation if and only if the greater one is the full
relation, or it or the empty relation can be reached from the lesser one. -/
theorem derivable_const_iff (hr : r.Atomic) :
    (Goal.subrel (.const a) (.const b)).Derivable r ↔
      b = Reserved.top ∨ r.Reaches a b ∨ r.Reaches a Reserved.bottom := by
  -- going along edges, backwards from a relation that is included
  have hback {c : String} (hreach : r.Reaches a c) (hc : ∃ n, Included r n (.const c) (.const b)) :
      ∃ n, Included r n (.const a) (.const b) := by
    induction hreach using Relation.ReflTransGen.head_induction_on with
    | refl => exact hc
    | head hedge _ ih =>
      obtain ⟨n, hn⟩ := ih
      obtain ⟨f, hf, hl, hg⟩ := hedge
      rw [← hl]
      exact ⟨n + 1, .through hf (hg ▸ hn)⟩
  refine ⟨fun ⟨n, h⟩ => h.reaches hr, ?_⟩
  rintro (htop | hreach | hreach)
  · exact ⟨0, .extreme (.inl (Term.view_const_eq_top.2 htop))⟩
  · exact hback hreach ⟨0, .same rfl⟩
  · exact hback hreach ⟨0, .extreme (.inr (Term.view_const_eq_bottom.2 rfl))⟩

/-! ## The rules -/

/-- Constants are unified if and only if they are the same, and nothing is bound. -/
theorem Subst.unify_const (σ : Subst) (a b : String) :
    σ.unify (.const a) (.const b) = if a = b then some σ else none := by
  have hdescend : ∀ follow, Subst.descend follow (.const a) (.const b) σ =
      if a = b then some σ else none := by
    intro follow
    have hwalk : σ.walk (.const b) = .const b :=
      (Term.leaves_of_ground (Term.plainGround_const b).ground σ).walk_eq
    simp only [Subst.descend, hwalk, Term.app.injEq, and_true]
    split_ifs <;> rfl
  unfold Subst.unify
  cases Budget.ofTerms (.ofSubst σ) [.const a, .const b] with
  | spent => exact hdescend _
  | more rest => exact hdescend _

namespace Search

variable {α β ρ : Type} {s t : State} {goal : Goal} {Q : ρ → State → Prop} {m m' : Search ρ}

theorem Calm.unify_const (h : a = b → ∀ t, T.Still s t → Calm T m t Q)
    (h' : ∀ t, T.Still s t → Calm T m' t Q) :
    Calm T (unify (.const a) (.const b) >>= fun ok => if ok = true then m else m') s Q := by
  let counted : State := s.counted fun n => { n with unifications := n.unifications + 1 }
  have hcounted : T.Still s counted := .counted fun n => by simp [Stats.le_def]
  have hrun : (unify (.const a) (.const b)).run s = .success (decide (a = b)) counted := by
    change (assign (.const a) (.const b)).run counted = _
    simp only [assign, Subst.unify_const]
    split_ifs with heq <;> simp [heq]
  have hunify : Calm T (unify (.const a) (.const b)) s fun ok t =>
      T.Still s t ∧ ok = decide (a = b) := by
    unfold Calm
    rw [hrun]
    exact ⟨.counted fun n => by simp [Stats.le_def], rfl⟩
  refine .bind (hunify.mono fun ok t ht => ⟨ht.1, ?_⟩)
  obtain ⟨ht, rfl⟩ := ht
  split
  · next heq => exact h (by simpa using heq) t ht
  · exact h' t ht

/-- No placeholders are set aside for a flat registry. -/
theorem Calm.reserve {f : Inclusion} (hf : f ∈ T.registry.inclusions) :
    Calm T (reserve f.schematic) s fun _ t => T.Still s t := by
  have hgets := reserve_gets (s := s) (n := f.schematic)
  unfold Calm
  cases hrun : (Search.reserve f.schematic).run s with
  | success i t =>
    refine ⟨(hgets.of_success hrun).2.1, fun hflat => ?_⟩
    simp only [Search.reserve, hflat f hf, Nat.add_zero] at hrun
    split at hrun <;> cases hrun
    rfl
  | failure why t => exact (Total.reserve s why t hrun).elim
  | overflow l =>
    rintro ⟨hflat, hnext⟩
    simp only [Search.reserve, hflat f hf, Nat.add_zero, if_pos hnext] at hrun
    cases hrun

theorem eachInclusion_calm (hr : T.registry.Atomic) {run : Nat → Term → Term → Search ρ}
    (hrun : ∀ id f c d t, f ∈ T.registry.inclusions → f.lesser = .const c → f.greater = .const d →
      T.Still s t → Calm T (run id (.const c) (.const d)) t Q) :
    Calm T (eachInclusion T goal run) s Q := by
  refine .tryEach ?_ (fun best t _ hbest => .failBest .noRule hbest) (by simp)
  rintro ⟨f, id⟩ hmem t ht
  have hf : f ∈ T.registry.inclusions := by
    have hid : T.registry.inclusions[id]? = some f := by
      simpa [List.mem_zipIdx_iff_getElem?] using hmem
    exact Array.mem_of_getElem? hid
  obtain ⟨c, d, hc, hd⟩ := hr f hf
  refine .bind ((Calm.reserve hf).mono fun offset u hu => ⟨hu, ?_⟩)
  have hfound := hrun id f c d u hf hc hd (ht.trans hu)
  simpa only [hc, hd, Term.rename_of_ground (Term.plainGround_const _).ground] using hfound

theorem subrelRefl_calm :
    Calm T (subrelRefl (.subrel (.const x) (.const y))) s fun r t =>
      T.Still s t ∧ r.subgoals = [] := by
  refine Calm.subst ?_
  split
  · exact .pure ⟨.refl s, rfl⟩
  · exact .unify_const (fun _ t ht => .pure ⟨ht, rfl⟩) fun _ _ => .noRule

theorem subrelExtremes_calm :
    Calm T (subrelExtremes (.subrel (.const x) (.const y))) s fun r t =>
      T.Still s t ∧ r.subgoals = [] := by
  refine Calm.subst ?_
  split
  · exact .pure ⟨.refl s, rfl⟩
  · exact .noRule

/-- Constants have no parts to be compared. -/
theorem subrelStructural_calm :
    Calm T (subrelStructural T (.subrel (.const x) (.const y))) s fun r t =>
      T.Still s t ∧ r.subgoals = [] := by
  have hseen (a : String) : s.subst.view (.const a) = (Term.const a).view :=
    (Term.leaves_of_ground (Term.plainGround_const a).ground _).view_eq
  refine Calm.subst ?_
  rw [hseen, hseen, Term.view_const x]
  split_ifs
  · exact .noRule
  · exact .noRule
  · exact .noRule
  · rw [Term.view_const y]
    split_ifs
    · exact .noRule
    · exact .noRule
    · exact .noRule
    · dsimp only
      split
      · cases T.registry.variances.get? x with
        | none => exact .noRule
        | some variances =>
          change Calm T (if variances.length = ([] : List Term).length then _ else _) s _
          split
          · exact .pure ⟨.refl s, rfl⟩
          · exact .noRule
      · exact .noRule

/-- A method for inclusions is calm on constants, and leaves at most the inclusion of a registered
greater side in the one asked for. -/
theorem ordering_calm {prove : Prover} {name : String} {emit : Reduction → Search ρ}
    {method : Method} (hmethod : method ∈ Method.ordering) (hr : T.registry.Atomic)
    (hlimits : T.limits.deferUnsolved = false)
    (hemit : ∀ (r : Reduction) t, T.Still s t →
      (r.subgoals = [] ∨ ∃ c d, T.registry.Edge c d ∧
        r.subgoals = [.subrel (.const d) (.const y)]) → Calm T (emit r) t Q) :
    Calm T (method.run T prove name (.subrel (.const x) (.const y)) emit) s Q := by
  simp only [Method.ordering, List.mem_cons, List.not_mem_nil, or_false] at hmethod
  rcases hmethod with rfl | rfl | rfl | rfl | rfl | rfl
  · exact .bind (subrelRefl_calm.mono fun r t ht => ⟨ht.1, hemit r t ht.1 (.inl ht.2)⟩)
  · exact .bind (subrelExtremes_calm.mono fun r t ht => ⟨ht.1, hemit r t ht.1 (.inl ht.2)⟩)
  · simp only [Method.run, subrelFact]
    refine eachInclusion_calm hr fun id f c d t _ _ _ ht => ?_
    refine .unify_const (fun _ u hu => .unify_const (fun _ v hv => ?_) fun _ _ => .noRule)
      fun _ _ => .noRule
    exact hemit _ v ((ht.trans hu).trans hv) (.inl rfl)
  · exact .bind (subrelStructural_calm.mono fun r t ht => ⟨ht.1, hemit r t ht.1 (.inl ht.2)⟩)
  · simp only [Method.run, subrelTrans]
    refine eachInclusion_calm hr fun id f c d t hf hc hd ht => ?_
    refine .unify_const (fun _ u hu => hemit _ u (ht.trans hu) (.inr ?_)) fun _ _ => .noRule
    exact ⟨c, d, ⟨f, hf, hc, hd⟩, rfl⟩
  · simp only [Method.run, deferUnsolved, hlimits]
    exact .bind .noRule

/-! ## The search -/

/-- The inclusions that can come up in a search for the inclusion of `a` in `b`. -/
def onward (r : Registry) (a b : String) : List Goal :=
  (Term.const a :: r.inclusions.toList.map (·.greater)).map fun t => .subrel t (.const b)

theorem length_onward : (onward r a b).length = r.inclusions.size + 1 := by simp [onward]

theorem mem_onward_of_edge {c d : String} (h : r.Edge c d) :
    .subrel (.const d) (.const b) ∈ onward r a b := by
  obtain ⟨f, hf, -, hd⟩ := h
  refine List.mem_map.2 ⟨.const d, List.mem_cons_of_mem _ (List.mem_map.2 ⟨f, ?_, hd⟩), rfl⟩
  simpa using hf

/-- A search for an inclusion between constants is calm: the goals in progress are different and
few, and there is room for them. -/
theorem solve_const_calm (hT : T.Library) (hr : T.registry.Atomic)
    (hlimits : T.limits.deferUnsolved = false) {k : Proof → Search ρ} {room : Nat}
    (hgoal : .subrel (.const x) (.const b) ∈ onward T.registry a b)
    (hactive : ∀ g ∈ s.active, g ∈ onward T.registry a b) (hnodup : s.active.Nodup)
    (hroom : T.registry.inclusions.size + 2 ≤ s.active.length + room)
    (hk : ∀ p t, T.Still s t → Calm T (k p) t fun _ _ => True) :
    Calm T (solve T room ρ (.subrel (.const x) (.const b)) k) s fun _ _ => True := by
  induction room generalizing x s k with
  | zero =>
    have hlength := (List.subperm_of_subset hnodup hactive).length_le
    rw [length_onward] at hlength
    omega
  | succ room ih =>
    have hresolve : (Goal.subrel (.const x) (.const b)).resolve s.subst =
        .subrel (.const x) (.const b) :=
      (groundOrder_const x b).resolve_eq _
    refine solve_calm hresolve fun hnew rule hrule hfits t ht => ?_
    refine ordering_calm (hT.mem_ordering hrule hfits) hr hlimits fun r u hu hsub => ?_
    have hsu := ht.trans hu
    have hk' : ∀ p v, T.Still u v →
        Calm T (outside (.subrel (.const x) (.const b)) (k p)) v fun _ _ => True :=
      fun p v hv => .outside (hsu.trans hv) (hk p v.leave (hsu.trans hv).of_enter)
    rcases hsub with hnil | ⟨c, d, hedge, hone⟩
    · rw [hnil]
      exact hk' _ u (.refl u)
    · rw [hone]
      have hactive' : u.active = .subrel (.const x) (.const b) :: s.active := hsu.kept.active
      refine ih (mem_onward_of_edge hedge) ?_ ?_ ?_ fun p v hv => hk' _ v hv
      · rw [hactive', List.forall_mem_cons]
        exact ⟨hgoal, hactive⟩
      · rw [hactive', List.nodup_cons]
        exact ⟨hnew, hnodup⟩
      · rw [hactive', List.length_cons]
        omega

end Search

/-! ## Answers -/

theorem Solution.failure?_ofProof (goal : Goal) (bound : Nat) (p : Proof) (s : State) :
    (ofProof goal bound p s).failure? = none := by
  cases h : s.delayed.isEmpty <;> simp [ofProof, ofState, failure?, h]

theorem Solution.exists_of_not_holds {sol : Solution} (h : ¬ sol.holds = true) :
    ∃ why, sol.failure? = some why := by
  cases hverdict : sol.verdict <;> simp_all [holds, isFailed, failure?]

namespace Engine

variable {E : Engine} {goal : Goal} {sol : Solution}

theorem exists_ok_of_not_overflow {bound : Nat} (hbound : schematic? goal.terms = some bound)
    (h : ∀ l, (E.search goal).run (E.start bound) ≠ .overflow l) :
    ∃ sol, (E.solve goal).1.result = .ok sol := by
  unfold Engine.solve query
  simp only [hbound]
  cases hrun : (E.search goal).run (E.start bound) with
  | success p final => exact ⟨_, rfl⟩
  | failure why final => exact ⟨_, rfl⟩
  | overflow l => exact (h l hrun).elim

/-- A calm search with steps to spare is not refused for a limit. -/
theorem not_exhausted_of_calm (h : (E.solve goal).1.result = .ok sol)
    (hcalm : ∀ bound, Calm E.theory (E.search goal) (E.start bound) fun _ _ => True)
    (hsteps : sol.stats.steps < E.theory.limits.fuel) :
    ∀ why ∈ sol.failure?, why.isExhausted = false := by
  intro why hwhy
  obtain ⟨bound, -, ⟨p, final, hrun, rfl⟩ | ⟨why', final, hrun, rfl⟩⟩ := solve_eq_ok h
  · rw [Solution.failure?_ofProof] at hwhy
    cases hwhy
  · obtain rfl : why' = why := by
      simpa [Solution.failure?, Solution.ofFailure, Solution.ofState] using hwhy
    have hspent : E.theory.spent final.ledger = false := by
      simpa [Theory.spent, Solution.ofFailure, Solution.ofState] using hsteps
    cases hcause : why'.isExhausted with
    | false => rfl
    | true =>
      rw [((hcalm bound).of_failure hrun).2 hcause] at hspent
      cases hspent

/-- With the standard rules and nothing put off, `solve` decides for registered inclusions between
constants, cycles included, whether one constant is included in another. There has to be room for
two goals more than there are registered inclusions. If no placeholders are set aside for the
inclusions there is an answer, and every answer with steps to spare is right: the inclusion is
proved outright if the greater constant is the full relation, or it or the empty relation can be
reached from the lesser one; otherwise it is refused, and not for a limit. -/
theorem inclusion_decides_reachability (hE : E.theory.Library) (hrules : E.theory.Stocked)
    (hlimits : E.theory.limits.deferUnsolved = false) (hr : E.theory.registry.Atomic)
    (hdepth : E.theory.registry.inclusions.size + 2 ≤ E.theory.limits.maxDepth) (a b : String) :
    (E.theory.registry.Flat →
      ∃ sol, (E.solve (.subrel (.const a) (.const b))).1.result = .ok sol) ∧
    ∀ sol, (E.solve (.subrel (.const a) (.const b))).1.result = .ok sol →
      sol.stats.steps < E.theory.limits.fuel →
      (b = Reserved.top ∨ E.theory.registry.Reaches a b ∨
          E.theory.registry.Reaches a Reserved.bottom → sol.isSolved = true) ∧
      (¬ (b = Reserved.top ∨ E.theory.registry.Reaches a b ∨
          E.theory.registry.Reaches a Reserved.bottom) →
        ∃ why, sol.failure? = some why ∧ why.isExhausted = false) := by
  have hgoal := groundOrder_const a b
  have hreg : E.theory.registry.PlainGroundOrder := by
    intro f hf
    obtain ⟨c, d, hc, hd⟩ := hr f hf
    exact ⟨hc ▸ Term.plainGround_const c, hd ▸ Term.plainGround_const d⟩
  have hcalm (bound : Nat) : Calm E.theory (E.search (.subrel (.const a) (.const b)))
      (E.start bound) fun _ _ => True :=
    solve_const_calm (a := a) hE hr hlimits (by simp [onward]) (by simp [start]) (by simp [start])
      (by simpa [start] using hdepth) fun _ _ _ => .pure trivial
  refine ⟨fun hflat => ?_, fun sol h hsteps => ?_⟩
  · have hbound : schematic? (Goal.subrel (.const a) (.const b)).terms = some 0 := rfl
    refine exists_ok_of_not_overflow hbound fun l hrun => ?_
    exact (hcalm 0).not_overflow hrun ⟨hflat, by simp [start, indexBound]⟩
  · have hcause := not_exhausted_of_calm h hcalm hsteps
    have hiff := holds_iff_derivable hE hrules hreg hlimits hgoal h hcause hsteps
    rw [derivable_const_iff hr] at hiff
    refine ⟨fun hreach => ?_, fun hreach => ?_⟩
    · exact (derivable_of_holds hE hreg hlimits hgoal h (hiff.2 hreach)).1
    · obtain ⟨why, hwhy⟩ := Solution.exists_of_not_holds (mt hiff.1 hreach)
      exact ⟨why, hwhy, hcause why hwhy⟩

/-- An engine that was told of a cycle of three constants and of a way out of it. -/
def withCycle : Engine :=
  { Engine.new { maxDepth := 6 } with
    theory := { Theory.standard { maxDepth := 6 } with
      registry :=
        { inclusions := #[⟨.const "a", .const "b", .const "ab", 0⟩,
            ⟨.const "b", .const "c", .const "bc", 0⟩, ⟨.const "c", .const "a", .const "ca", 0⟩,
            ⟨.const "c", .const "d", .const "cd", 0⟩] } } }

/-- There is a way from the cycle to `d`, and none to `e`. -/
theorem withCycle_decides_reachability :
    (∃ sol, (withCycle.solve (.subrel (.const "a") (.const "d"))).1.result = .ok sol ∧
      sol.isSolved = true) ∧
    ∃ sol why, (withCycle.solve (.subrel (.const "a") (.const "e"))).1.result = .ok sol ∧
      sol.failure? = some why ∧ why.isExhausted = false := by
  have hedge {c d : String} (h : withCycle.theory.registry.Edge c d) :
      (c, d) ∈ [("a", "b"), ("b", "c"), ("c", "a"), ("c", "d")] := by
    obtain ⟨f, hf, hc, hd⟩ := h
    simp only [withCycle, List.mem_toArray, List.mem_cons, List.not_mem_nil, or_false] at hf
    rcases hf with rfl | rfl | rfl | rfl <;> simp_all [Term.const]
  have hreached {c : String} (h : withCycle.theory.registry.Reaches "a" c) :
      c ∈ ["a", "b", "c", "d"] := by
    induction h with
    | refl => simp
    | tail _ hlast _ =>
      have hmem := hedge hlast
      simp only [List.mem_cons, List.not_mem_nil, or_false, Prod.mk.injEq] at hmem
      rcases hmem with ⟨-, rfl⟩ | ⟨-, rfl⟩ | ⟨-, rfl⟩ | ⟨-, rfl⟩ <;> simp
  have hatomic : withCycle.theory.registry.Atomic := by
    intro f hf
    simp only [withCycle, List.mem_toArray, List.mem_cons, List.not_mem_nil, or_false] at hf
    rcases hf with rfl | rfl | rfl | rfl <;> exact ⟨_, _, rfl, rfl⟩
  have hdecides := inclusion_decides_reachability (E := withCycle)
    (library_standard { maxDepth := 6 })
    (fun rule hrule => mem_insertAll.2 (.inl hrule)) rfl hatomic (by decide)
  have hway : withCycle.theory.registry.Reaches "a" "d" :=
    .head ⟨_, Array.mem_of_getElem? (i := 0) rfl, rfl, rfl⟩ <|
      .head ⟨_, Array.mem_of_getElem? (i := 1) rfl, rfl, rfl⟩ <|
      .head ⟨_, Array.mem_of_getElem? (i := 3) rfl, rfl, rfl⟩ .refl
  constructor
  · have hsteps : (withCycle.solve (.subrel (.const "a") (.const "d"))).1.result.toOption.any
        (fun sol => decide (sol.stats.steps < 100000)) = true := by
      decide +kernel
    obtain ⟨sol, hsol, hsteps⟩ := exists_ok_of_any hsteps
    have hsolved := ((hdecides "a" "d").2 sol hsol (of_decide_eq_true hsteps)).1
    exact ⟨sol, hsol, hsolved (.inr (.inl hway))⟩
  · have hsteps : (withCycle.solve (.subrel (.const "a") (.const "e"))).1.result.toOption.any
        (fun sol => decide (sol.stats.steps < 100000)) = true := by
      decide +kernel
    obtain ⟨sol, hsol, hsteps⟩ := exists_ok_of_any hsteps
    obtain ⟨why, hwhy, hcause⟩ := ((hdecides "a" "e").2 sol hsol (of_decide_eq_true hsteps)).2 (by
      rintro (htop | hreach | hreach)
      · simp [Reserved.top] at htop
      · simpa using hreached hreach
      · simpa [Reserved.bottom] using hreached hreach)
    exact ⟨sol, why, hsol, hwhy, hcause⟩

end Engine

end Monotonicity
