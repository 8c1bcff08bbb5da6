import Monotonicity.Proofs.Limit.Library
import Monotonicity.Proofs.Steady.Library

/-!
# Searches that only a limit stops

If one of the rules for a goal leads to a proof, up to limits, then the solver finds one, up to
limits: the rules before it are taken back if they fail, and a limit that one of them met is not
forgotten. The same holds of alternatives. The main result is `solve_sure`, which leaves nothing to
be shown but that one application of one rule is sure.
-/

namespace Monotonicity

open Search

namespace Search

variable {α β ρ : Type} {T : Theory} {m : Search α} {s t u : State} {goal : Goal}
  {k : Proof → Search ρ} {best : Option Failure}

theorem Prevails.pure {a : α} : Prevails T (pure a : Search α) s := by
  intro why t h
  cases h

/-- A search that does not fail, and then one that only a limit makes fail. -/
theorem Prevails.after {f : α → Search β} (hm : m.Total)
    (h : ∀ a t, m.run s = .success a t → Prevails T (f a) t) : Prevails T (m >>= f) s := by
  intro why t hrun
  rw [run_bind] at hrun
  cases hm' : m.run s with
  | success a u =>
    rw [hm'] at hrun
    exact h a u hm' why t hrun
  | failure why' u => exact (hm s why' u hm').elim
  | overflow l =>
    rw [hm'] at hrun
    cases hrun

theorem Prevails.within {before after : State → State} (hafter : ∀ t, (after t).ledger = t.ledger)
    (h : Prevails T m (before s)) : Prevails T (within before after m) s := by
  intro why t hrun
  unfold Search.within at hrun
  cases hm : m.run (before s) <;> simp [hm, Outcome.mapState] at hrun
  obtain ⟨rfl, rfl⟩ := hrun
  have hstop := h _ _ hm
  unfold Theory.Stopped at hstop ⊢
  rwa [hafter]

/-- From the state nothing but a limit makes the search fail, and then for a mild cause and with no
less than was there. -/
structure Sure (T : Theory) (m : Search α) (s : State) : Prop where
  mild : m.Mild
  yields : m.Yields s fun _ _ => True
  prevails : Prevails T m s

theorem Sure.pure {a : α} : Sure T (pure a : Search α) s := ⟨.pure, trivial, .pure⟩

/-- From here on the goal is sure to be proved, if the continuation is sure of the rest. -/
def Assured (T : Theory) (ρ : Type) (prove : Prover) (s : State) (goal : Goal) : Prop :=
  ∀ (k : Proof → Search ρ) t, s.Grown t → (∀ p u, t.Grown u → Sure T (k p) u) →
    Sure T (prove ρ goal k) t

theorem Assured.later {prove : Prover} (h : Assured T ρ prove s goal) (ht : s.Grown t) :
    Assured T ρ prove t goal :=
  fun k u hu => h k u (ht.trans hu)

/-! ## Alternatives -/

/-- One alternative is enough, if those before it leave the state as it was. -/
theorem tryEach_prevails_of_mem {run : α → Search ρ} {otherwise : Option Failure → Search ρ}
    (hmild : ∀ a, (run a).Mild)
    (hstop : ∀ best s, best.isExhausted = true → Prevails T (otherwise (some best)) s)
    {as : List α} (hyields : ∀ a ∈ as, ∀ t, s.Kept t → (run a).Yields t fun _ _ => True)
    {a : α} (ha : a ∈ as) (hrun : ∀ t, s.Kept t → Prevails T (run a) t)
    (hbest : ∀ b ∈ best, b.Mild) : Prevails T (tryEach T run otherwise as best) s := by
  induction as generalizing s best with
  | nil => cases ha
  | cons b as ih =>
    intro why t h
    rw [tryEach, run_recover] at h
    cases hb : (attempt (run b)).run s with
    | success c u => simp [hb] at h
    | overflow l => simp [hb] at h
    | failure why' u =>
      simp only [hb] at h
      obtain ⟨v, hv, rfl⟩ := attempt_failure hb
      have hwhy : why'.Mild := hmild b s why' v hv
      have hkept : s.Kept (v.undo s.mark) :=
        ((hyields b List.mem_cons_self s (.refl s)).of_failure hv).kept_undo
      refine unlessSpent_prevails (fun hspent => ?_) why t h
      rcases List.mem_cons.1 ha with rfl | ha
      · have hexhausted := (hrun s (.refl s) why' v hv).exhausted hspent
        exact tryEach_prevails hmild hstop (Failure.exhausted_orElse hexhausted hbest)
      · refine ih ?_ ha (fun t ht => hrun t (hkept.trans ht)) ?_
        · exact fun c hc t ht => hyields c (List.mem_cons_of_mem _ hc) t (hkept.trans ht)
        · simpa using Failure.orElse_mild hwhy hbest

/-- What comes after the alternatives is enough, if they leave the state as it was. -/
theorem tryEach_prevails_of_rest {run : α → Search ρ} {otherwise : Option Failure → Search ρ}
    (hmild : ∀ a, (run a).Mild) {as : List α}
    (hyields : ∀ a ∈ as, ∀ t, s.Kept t → (run a).Yields t fun _ _ => True)
    (hother : ∀ best t, s.Kept t → (∀ b ∈ best, b.Mild) → Prevails T (otherwise best) t)
    (hbest : ∀ b ∈ best, b.Mild) : Prevails T (tryEach T run otherwise as best) s := by
  induction as generalizing s best with
  | nil => exact hother best s (.refl s) hbest
  | cons b as ih =>
    intro why t h
    rw [tryEach, run_recover] at h
    cases hb : (attempt (run b)).run s with
    | success c u => simp [hb] at h
    | overflow l => simp [hb] at h
    | failure why' u =>
      simp only [hb] at h
      obtain ⟨v, hv, rfl⟩ := attempt_failure hb
      have hkept : s.Kept (v.undo s.mark) :=
        ((hyields b List.mem_cons_self s (.refl s)).of_failure hv).kept_undo
      refine unlessSpent_prevails (fun _ => ih ?_ ?_ ?_) why t h
      · exact fun c hc t ht => hyields c (List.mem_cons_of_mem _ hc) t (hkept.trans ht)
      · exact fun best t ht => hother best t (hkept.trans ht)
      · simpa using Failure.orElse_mild (hmild b s why' v hv) hbest

/-! ## Rules -/

variable {prove : Prover}

/-- One rule is enough, if those before it leave the state as it was. -/
theorem tryRules_prevails_of_mem {rules : List Rule}
    (hmild : ∀ rule ∈ rules, (applyRule T prove goal k rule).Mild)
    (hyields : ∀ rule ∈ rules, ∀ t, s.Kept t → rule.pattern.fits s.subst goal = true →
      (applyRule T prove goal k rule).Yields t fun _ _ => True)
    {rule : Rule} (hrule : rule ∈ rules) (hfits : rule.pattern.fits s.subst goal = true)
    (happly : ∀ t, s.Kept t → Prevails T (applyRule T prove goal k rule) t)
    (hbest : ∀ b ∈ best, b.Mild) : Prevails T (tryRules T prove goal k rules best) s := by
  induction rules generalizing s best with
  | nil => cases hrule
  | cons r rules ih =>
    rw [List.forall_mem_cons] at hmild hyields
    refine tryRules_cons_prevails (fun hfit s₁ why u v hs₁ hrun hkept hspent => ?_) fun hskip => ?_
    · have hwhy : why.Mild := hmild.1 s₁ why u hrun
      rcases List.mem_cons.1 hrule with rfl | hrule
      · have hexhausted := (happly s₁ hs₁ why u hrun).exhausted hspent
        exact tryRules_prevails hmild.2 (Failure.exhausted_orElse hexhausted hbest)
      · have hsv : s.Kept v := hkept ((hyields.1 s₁ hs₁ hfit).of_failure hrun)
        refine ih hmild.2 ?_ hrule ?_ (fun t ht => happly t (hsv.trans ht)) ?_
        · rw [hsv.subst]
          exact fun r hr t ht => hyields.2 r hr t (hsv.trans ht)
        · rwa [hsv.subst]
        · simpa using Failure.orElse_mild hwhy hbest
    · rcases List.mem_cons.1 hrule with rfl | hrule
      · rw [hfits] at hskip
        cases hskip
      · exact ih hmild.2 hyields.2 hrule hfits happly hbest

/-- A goal is no longer in progress for the continuation. -/
theorem Sure.outside {m : Search ρ} (hs : (s.enter goal).Grown t) (h : Sure T m t.leave) :
    Sure T (outside goal m) t where
  mild := (Upheld.refl (T := T) h.mild).outside.mild
  yields := .outside hs h.yields
  prevails := h.prevails.within fun _ => rfl

/-- Further hypotheses are withdrawn for the continuation. -/
theorem Sure.withdrawing {m : Search ρ} {further : List Hypothesis}
    (hs : (s.assume further).Grown t) (h : Sure T m (t.withdraw s.hyps.length)) :
    Sure T (withdrawing s.hyps.length m) t where
  mild := (Upheld.refl (T := T) h.mild).withdrawing.mild
  yields := Ends.within (·.withdraw s.hyps.length) _
    (Ends.mono h.yields (fun _ hu => hs.assume_drop hu) fun _ _ => id)
  prevails := by
    have hwithin : Prevails T (within (·.withdraw s.hyps.length)
        (fun u => (u.withdraw s.hyps.length).assume (t.hyps.drop s.hyps.length)) m) t :=
      h.prevails.within fun _ => rfl
    exact hwithin

/-- A goal under further hypotheses is proved if it is with these in scope. -/
theorem proveAssuming_prevails {further : List Hypothesis}
    (hk : ∀ p t, s.Grown t → Sure T (k p) t)
    (h : ∀ k' : Proof → Search ρ, (∀ p t, (s.assume further).Grown t → Sure T (k' p) t) →
      Sure T (prove ρ goal k') (s.assume further)) :
    Prevails T (proveAssuming prove further goal k) s := by
  have hsure := h (fun p => withdrawing s.hyps.length (k p)) fun p t ht =>
    (hk p _ ht.of_assume).withdrawing ht
  have hwithin : Prevails T (within (·.assume further) (·.withdraw s.hyps.length)
      (prove ρ goal fun p => withdrawing s.hyps.length (k p))) s :=
    hsure.prevails.within fun _ => rfl
  exact hwithin

end Search

variable {T : Theory} {ρ : Type} {s : State} {goal : Goal} {k : Proof → Search ρ} {room : Nat}

/-- What the continuation of a solver is sure of, the solver does not undo. -/
theorem Theory.Library.sure (hT : T.Library) (hacyclic : s.subst.Acyclic)
    (hk : ∀ p t, s.Grown t → Sure T (k p) t) (h : Prevails T (solve T room ρ goal k) s) :
    Sure T (solve T room ρ goal k) s where
  mild := (solve_upheld hT.candid (fun _ _ _ => exhausted) room fun p =>
    .refl (hk p s (.refl s)).mild).mild
  yields := hT.yields closed_true hacyclic fun p t ht _ => (hk p t ht).yields
  prevails := h

/-- A new goal is proved, up to limits, if one of the rules that it fits leads to a proof. -/
theorem solve_sure (hT : T.Library) (hacyclic : s.subst.Acyclic) {rule : Rule}
    (hrule : rule ∈ T.rules) (hgoal : goal.resolve s.subst = goal) (hnew : goal ∉ s.active)
    (hfits : rule.pattern.fits s.subst goal = true) (hk : ∀ p t, s.Grown t → Sure T (k p) t)
    (happly : ∀ (room : Nat) (k' : Proof → Search ρ) (t : State), (s.enter goal).Kept t →
      (∀ p u, t.Grown u → Sure T (k' p) u) →
      Prevails T (applyRule T (solve T room) goal k' rule) t) :
    Sure T (solve T room ρ goal k) s := by
  refine hT.sure hacyclic hk ?_
  cases room with
  | zero => exact Prevails.exhausted
  | succ room =>
    let counted : State := s.counted fun n => { n with maxDepth := max n.maxDepth (s.depth + 1) }
    have hcounted : s.Kept counted := s.kept_counted fun n => by simp [Stats.le_def]
    have hentered : (s.enter goal).Kept (counted.enter goal) :=
      ⟨rfl, rfl, rfl, rfl, rfl, hcounted.ledger⟩
    have hk' : ∀ p t, (s.enter goal).Grown t → Sure T (outside goal (k p)) t :=
      fun p t ht => (hk p t.leave ht.of_enter).outside ht
    have hrules : Prevails T
        (tryRules T (solve T room) goal (fun p => outside goal (k p)) T.rules none)
        (counted.enter goal) := by
      refine tryRules_prevails_of_mem (fun r hr => ?_) (fun r hr t ht hfit => ?_) hrule hfits
        (fun t ht => ?_) (by simp)
      · have hsolve := solve_upheld hT.candid (fun _ _ _ => exhausted) room
        have hnext (p : Proof) := (hk' p _ (.refl _)).mild
        exact (applyRule_upheld (hT.candid r hr) hsolve fun p => .refl (hnext p)).mild
      · have hleft : goal.Left s.subst := hgoal ▸ Goal.left_resolve hacyclic goal
        refine keeps_replay hr (hT.faithful hr) (hT.met_replay room) ?_ (fun _ => ?_) trivial
          trivial fun p u hu => (hk' p u ((hentered.trans ht).grown.trans hu.grown)).yields
        · rwa [ht.subst]
        · rw [ht.subst]
          exact hleft
      · exact happly room _ t (hentered.trans ht) fun p u hu =>
          hk' p u ((hentered.trans ht).grown.trans hu)
    intro why t h
    change (if T.spent s.ledger = true then _ else _ : Search ρ).run s = _ at h
    split at h
    · exact Prevails.exhausted why t h
    · change (solveResolved T (solve T room) (goal.resolve s.subst) k).run s = _ at h
      rw [hgoal] at h
      change (if s.active.contains goal = true then _ else _ : Search ρ).run s = _ at h
      rw [if_neg (by simpa using hnew)] at h
      have hinside : Prevails T (within (·.enter goal) State.leave (tryRules T (solve T room) goal
          (fun p => outside goal (k p)) T.rules none)) counted :=
        hrules.within fun _ => rfl
      exact hinside why t h

end Monotonicity
