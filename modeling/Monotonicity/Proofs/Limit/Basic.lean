import Monotonicity.Proofs.Search.Ends
import Monotonicity.Search.Solver

/-!
# Limits come to light

A limit stood in the way of a search if it failed for that cause, or when the steps were used up. No
failure in a search for proofs says more than that a limit was reached (`Mild`), so among
alternatives this cause is the one that is reported. Hence a failure in which no limit had a part
anywhere can be told by its cause: it is upheld whatever is done in the places where the limit would
have been met.

`Upheld` compares two searches in this way, in all states. There is one rule here for each way of
making searches. Nothing is asked of the second search where the first one succeeds: the proofs of
goals go to continuations, so that a part that succeeds is the whole.
-/

namespace Monotonicity

/-- The failure says no more than that a limit was reached. -/
def Failure.Mild (why : Failure) : Prop := why.specificity ≤ 3

namespace Failure

variable {why best : Failure} {earlier : Option Failure}

theorem mild_noRule (subject : Subject) : (noRule subject).Mild := by
  simp [Mild, specificity]

theorem mild_noCandidate (subject : Subject) : (noCandidate subject).Mild := by
  simp [Mild, specificity]

theorem mild_gap (subject : Subject) : (gap subject).Mild := by
  simp [Mild, specificity]

theorem mild_exhausted (depth steps : Nat) : (exhausted depth steps).Mild := by
  simp [Mild, specificity]

theorem mild_of_isExhausted (h : why.isExhausted = true) : why.Mild := by
  cases why <;> simp_all [Mild, specificity, isExhausted]

/-- That a limit was reached says the most. -/
theorem isExhausted_iff (h : why.Mild) : why.isExhausted = true ↔ 3 ≤ why.specificity := by
  cases why <;> simp_all [Mild, specificity, isExhausted]

theorem orElse_mild (h : why.Mild) (hbest : ∀ b ∈ earlier, b.Mild) : (why.orElse earlier).Mild := by
  cases earlier with
  | none => exact h
  | some b =>
    simp only [orElse]
    split
    · exact hbest b rfl
    · exact h

/-- An earlier limit is not forgotten. -/
theorem orElse_exhausted (h : why.Mild) (hbest : best.isExhausted = true) :
    (why.orElse (some best)).isExhausted = true := by
  simp only [orElse]
  split
  · exact hbest
  · next hlt =>
    have := (isExhausted_iff (mild_of_isExhausted hbest)).1 hbest
    exact (isExhausted_iff h).2 (by omega)

/-- A limit is not hidden by what failed before. -/
theorem exhausted_orElse (h : why.isExhausted = true) (hbest : ∀ b ∈ earlier, b.Mild) :
    (why.orElse earlier).isExhausted = true := by
  cases earlier with
  | none => exact h
  | some b =>
    have hb : b.specificity ≤ 3 := hbest b rfl
    have hwhy : why.specificity = 3 := by
      cases why <;> simp_all [specificity, isExhausted]
    simp only [orElse]
    rwa [if_neg (by omega)]

end Failure

/-- A limit stood in the way: the failure is for that cause, or the steps are used up. -/
def Theory.Stopped (T : Theory) (why : Failure) (s : State) : Prop :=
  why.isExhausted = true ∨ T.spent s.ledger = true

theorem Theory.Stopped.exhausted {T : Theory} {why : Failure} {s : State} (h : T.Stopped why s)
    (hspent : T.spent s.ledger = false) : why.isExhausted = true := by
  simpa [Stopped, hspent] using h

/-- The state with the statistics changed. -/
def State.counted (s : State) (g : Stats → Stats) : State :=
  { s with ledger := { s.ledger with stats := g s.ledger.stats } }

theorem State.kept_counted (s : State) {g : Stats → Stats} (hg : ∀ n, n ≤ g n) :
    s.Kept (s.counted g) :=
  Search.kept_ledger { Ledger.Advanced.refl s.ledger with stats := hg _ }

namespace Search

variable {α β ρ : Type} {T : Theory} {m m' : Search α} {f f' : α → Search β} {s t : State}
  {goal : Goal} {why : Failure}

/-- From the state, nothing but a limit makes the search fail. -/
def Prevails (T : Theory) (m : Search α) (s : State) : Prop :=
  ∀ why t, m.run s = .failure why t → T.Stopped why t

/-- All failures of the search are mild. -/
def Mild (m : Search α) : Prop := ∀ s why t, m.run s = .failure why t → why.Mild

/-- The failures of the first search are mild, and the second one upholds those in which no limit
had a part. -/
structure Upheld (T : Theory) (m m' : Search α) : Prop where
  mild : m.Mild
  same : ∀ s why t, m.run s = .failure why t → ¬ T.Stopped why t → m'.run s = .failure why t

/-! ## Searches that do not fail -/

/-- The search does not fail. -/
def Total (m : Search α) : Prop := ∀ s why t, m.run s ≠ .failure why t

theorem Total.mild (h : m.Total) : m.Mild := fun s why t hrun => (h s why t hrun).elim

namespace Total

theorem pure {a : α} : (pure a : Search α).Total := by
  intro s why t h
  cases h

theorem bind (hm : m.Total) (hf : ∀ a, (f a).Total) : (m >>= f).Total := by
  intro s why t h
  rw [run_bind] at h
  cases hrun : m.run s with
  | success a u =>
    rw [hrun] at h
    exact hf a u why t h
  | failure why' u => exact hm s why' u hrun
  | overflow l =>
    rw [hrun] at h
    cases h

theorem subst : subst.Total := by
  intro s why t h
  cases h

theorem hyps : hyps.Total := by
  intro s why t h
  cases h

theorem enterLedger {g : Ledger → Ledger} : (enterLedger g).Total := by
  intro s why t h
  cases h

theorem beginBridge : beginBridge.Total := by
  intro s why t h
  cases h

theorem unify {a b : Term} : (unify a b).Total := by
  refine bind enterLedger fun _ s why t h => ?_
  unfold assign at h
  dsimp only at h
  split at h <;> cases h

theorem reserve {n : Nat} : (reserve n).Total := by
  intro s why t h
  unfold Search.reserve at h
  dsimp only at h
  split at h <;> cases h

theorem freshVar : freshVar.Total := bind reserve fun _ => pure

theorem freshVars {n : Nat} : (freshVars n).Total := by
  induction n with
  | zero => exact pure
  | succ n ih => exact bind freshVar fun _ => bind ih fun _ => pure

theorem freshConst {hint : String} : (freshConst hint).Total := by
  intro s why t h
  cases h

theorem freshConsts {hint : String} {n : Nat} : (freshConsts hint n).Total := by
  induction n with
  | zero => exact pure
  | succ n ih => exact bind freshConst fun _ => bind ih fun _ => pure

theorem defer : (defer goal).Total := by
  intro s why t h
  cases h

end Total

/-! ## Mild failures -/

namespace Mild

theorem pure {a : α} : (pure a : Search α).Mild := by
  intro s why t h
  cases h

theorem fail (h : why.Mild) : (fail why : Search α).Mild := by
  intro s why' t hrun
  cases hrun
  exact h

theorem noRule : (noRule goal : Search α).Mild := by
  intro s why t h
  cases h
  exact Failure.mild_noRule _

theorem noCandidate : (noCandidate goal : Search α).Mild := by
  intro s why t h
  cases h
  exact Failure.mild_noCandidate _

theorem gap : (gap goal : Search α).Mild := by
  intro s why t h
  cases h
  exact Failure.mild_gap _

theorem exhausted : (exhausted : Search α).Mild := by
  intro s why t h
  cases h
  exact Failure.mild_exhausted _ _

theorem bind (hm : m.Mild) (hf : ∀ a, (f a).Mild) : (m >>= f).Mild := by
  intro s why t h
  rw [run_bind] at h
  cases hrun : m.run s with
  | success a u =>
    rw [hrun] at h
    exact hf a u why t h
  | failure why' u =>
    rw [hrun] at h
    cases h
    exact hm s why t hrun
  | overflow l =>
    rw [hrun] at h
    cases h

theorem require {value : Option α} {otherwise : Search α} (h : otherwise.Mild) :
    (require value otherwise).Mild := by
  cases value with
  | none => exact h
  | some a => exact pure

/-- A search that does not fail, and then one whose failures are mild. -/
theorem after (hm : m.Total) (hf : ∀ a, (f a).Mild) : (m >>= f).Mild := bind hm.mild hf

/-- One way to go on if two terms can be unified, and another if not. -/
theorem unify {a b : Term} {n : Search α} (h : m.Mild) (h' : n.Mild) :
    (Search.unify a b >>= fun ok => if ok = true then m else n).Mild := by
  refine after .unify fun ok => ?_
  cases ok with
  | true => exact h
  | false => exact h'

end Mild

/-! ## Upheld failures -/

/-- An attempt fails as the search that is attempted, and with the same ledger. -/
theorem attempt_failure (h : (attempt m).run s = .failure why t) :
    ∃ u, m.run s = .failure why u ∧ t = u.undo s.mark := by
  unfold attempt at h
  dsimp only at h
  split at h <;> cases h
  exact ⟨_, by assumption, rfl⟩

namespace Upheld

/-- A search upholds its own failures. -/
theorem refl (h : m.Mild) : Upheld T m m := ⟨h, fun _ _ _ hrun _ => hrun⟩

/-- Where only a limit makes the first search fail, nothing is asked of the second. -/
theorem of_stopped (hm : m.Mild) (h : ∀ s, Prevails T m s) : Upheld T m m' :=
  ⟨hm, fun s why t hrun hstop => (hstop (h s why t hrun)).elim⟩

theorem bind (hm : m.Mild) (hf : ∀ a, Upheld T (f a) (f' a)) :
    Upheld T (m >>= f) (m >>= f') := by
  refine ⟨hm.bind fun a => (hf a).mild, fun s why t h hstop => ?_⟩
  rw [run_bind] at h ⊢
  cases hrun : m.run s with
  | success a u =>
    rw [hrun] at h
    exact (hf a).same u why t h hstop
  | failure why' u =>
    rw [hrun] at h
    exact h
  | overflow l =>
    rw [hrun] at h
    cases h

/-- A search that does not fail, and then two that go on from it. -/
theorem after (hm : m.Total) (hf : ∀ a, Upheld T (f a) (f' a)) : Upheld T (m >>= f) (m >>= f') :=
  bind hm.mild hf

theorem subst {f f' : Subst → Search β} (h : ∀ σ, Upheld T (f σ) (f' σ)) :
    Upheld T (subst >>= f) (subst >>= f') :=
  after .subst h

theorem active {f f' : List Goal → Search β} (h : ∀ gs, Upheld T (f gs) (f' gs)) :
    Upheld T (active >>= f) (active >>= f') :=
  after (fun _ _ _ h => by cases h) h

theorem depth {f f' : Nat → Search β} (h : ∀ n, Upheld T (f n) (f' n)) :
    Upheld T (depth >>= f) (depth >>= f') :=
  after (fun _ _ _ h => by cases h) h

theorem ledger {f f' : Ledger → Search β} (h : ∀ l, Upheld T (f l) (f' l)) :
    Upheld T (ledger >>= f) (ledger >>= f') :=
  after (fun _ _ _ h => by cases h) h

theorem count {g : Stats → Stats} {f f' : Unit → Search β} (h : Upheld T (f ()) (f' ())) :
    Upheld T (count g >>= f) (count g >>= f') :=
  after .enterLedger fun _ => h

/-- One way to go on if two terms can be unified, and another if not. -/
theorem unify {a b : Term} {n : Search α} (h : Upheld T m m') (hn : n.Mild) :
    Upheld T (unify a b >>= fun ok => if ok = true then m else n)
      (Search.unify a b >>= fun ok => if ok = true then m' else n) := by
  refine after .unify fun ok => ?_
  cases ok with
  | true => exact h
  | false => exact refl hn

/-! ### Recovering -/

theorem attempt (h : Upheld T m m') : Upheld T (attempt m) (Search.attempt m') := by
  refine ⟨fun s why t hrun => ?_, fun s why t hrun hstop => ?_⟩
  · obtain ⟨u, hu, -⟩ := attempt_failure hrun
    exact h.mild s why u hu
  · obtain ⟨u, hu, rfl⟩ := attempt_failure hrun
    simp [Search.attempt, h.same s why u hu hstop]

/-- After a failure in which a limit had a part, only a limit may make the rest fail. -/
theorem recover {handler handler' : Failure → Search α} (h : Upheld T m m')
    (hh : ∀ why, why.Mild → Upheld T (handler why) (handler' why))
    (hstop : ∀ why t, why.Mild → T.Stopped why t → Prevails T (handler why) t) :
    Upheld T (m.recover handler) (m'.recover handler') := by
  refine ⟨fun s why t hrun => ?_, fun s why t hrun hnot => ?_⟩
  · rw [run_recover] at hrun
    cases hm : m.run s with
    | success a u => simp [hm] at hrun
    | overflow l => simp [hm] at hrun
    | failure why' u =>
      simp only [hm] at hrun
      exact (hh why' (h.mild s why' u hm)).mild u why t hrun
  · rw [run_recover] at hrun ⊢
    cases hm : m.run s with
    | success a u => simp [hm] at hrun
    | overflow l => simp [hm] at hrun
    | failure why' u =>
      simp only [hm] at hrun
      have hmild := h.mild s why' u hm
      by_cases hu : T.Stopped why' u
      · exact (hnot (hstop why' u hmild hu why t hrun)).elim
      · rw [h.same s why' u hm hu]
        exact (hh why' hmild).same u why t hrun hnot

/-! ### Scopes -/

theorem within {before after : State → State} (hafter : ∀ t, (after t).ledger = t.ledger)
    (h : Upheld T m m') : Upheld T (within before after m) (Search.within before after m') := by
  have hfail : ∀ s why t, (Search.within before after m).run s = .failure why t →
      ∃ u, m.run (before s) = .failure why u ∧ t = after u := by
    intro s why t hrun
    unfold Search.within at hrun
    cases hm : m.run (before s) <;> simp [hm, Outcome.mapState] at hrun
    exact ⟨_, by rw [hrun.1], hrun.2.symm⟩
  refine ⟨fun s why t hrun => ?_, fun s why t hrun hstop => ?_⟩
  · obtain ⟨u, hu, -⟩ := hfail s why t hrun
    exact h.mild _ why u hu
  · obtain ⟨u, hu, rfl⟩ := hfail s why t hrun
    have hstop' : ¬ T.Stopped why u := by
      unfold Theory.Stopped at hstop ⊢
      rwa [hafter] at hstop
    simp [Search.within, h.same _ why u hu hstop', Outcome.mapState]

theorem withdrawing {n : Nat} (h : Upheld T m m') :
    Upheld T (withdrawing n m) (Search.withdrawing n m') := by
  -- what is put back depends on the state, so both runs are compared from one state at a time
  have hat (s : State) : Upheld T
      (Search.within (·.withdraw n) (fun t => (t.withdraw n).assume (s.hyps.drop n)) m)
      (Search.within (·.withdraw n) (fun t => (t.withdraw n).assume (s.hyps.drop n)) m') :=
    h.within fun _ => rfl
  exact ⟨fun s => (hat s).mild s, fun s => (hat s).same s⟩

theorem inside (h : Upheld T m m') : Upheld T (inside goal m) (Search.inside goal m') :=
  depth fun _ => count (h.within fun _ => rfl)

theorem outside (h : Upheld T m m') : Upheld T (outside goal m) (Search.outside goal m') :=
  h.within fun _ => rfl

end Upheld

/-! ## Alternatives -/

theorem Prevails.fail (h : T.Stopped why s) : Prevails T (fail why : Search α) s := by
  intro why' t hrun
  cases hrun
  exact h

theorem Prevails.exhausted : Prevails T (exhausted : Search α) s := by
  intro why t hrun
  cases hrun
  exact .inl rfl

/-- With the steps used up the failure at hand is the answer. -/
theorem unlessSpent_prevails (h : T.spent s.ledger = false → Prevails T m s) :
    Prevails T (unlessSpent T why m) s := by
  intro why' t hrun
  change (if T.spent s.ledger = true then fail why else m).run s = .failure why' t at hrun
  split at hrun
  · next hspent =>
    cases hrun
    exact .inr hspent
  · next hspent => exact h (by simpa using hspent) why' t hrun

theorem unlessSpent_upheld (hwhy : why.Mild) (h : Upheld T m m') :
    Upheld T (unlessSpent T why m) (unlessSpent T why m') := by
  refine Upheld.ledger fun l => ?_
  split
  · exact .refl (.fail hwhy)
  · exact h

theorem failBest_upheld {best : Option Failure} (hbest : ∀ b ∈ best, b.Mild) (h : m.Mild) :
    Upheld T (failBest m best) (failBest m best) := by
  cases best with
  | none => exact .refl h
  | some b => exact .refl (.fail (hbest b rfl))

/-- Once a limit was reached by an alternative, only a limit makes all of them fail. -/
theorem tryEach_prevails {run : α → Search ρ} {otherwise : Option Failure → Search ρ}
    (hrun : ∀ a, (run a).Mild)
    (hother : ∀ best s, best.isExhausted = true → Prevails T (otherwise (some best)) s)
    {as : List α} {best : Failure} (hbest : best.isExhausted = true) :
    Prevails T (tryEach T run otherwise as (some best)) s := by
  induction as generalizing s best with
  | nil => exact hother best s hbest
  | cons a as ih =>
    intro why t h
    rw [tryEach, run_recover] at h
    cases ha : (attempt (run a)).run s with
    | success b u => simp [ha] at h
    | overflow l => simp [ha] at h
    | failure why' u =>
      simp only [ha] at h
      obtain ⟨v, hv, -⟩ := attempt_failure ha
      exact unlessSpent_prevails (fun _ => ih (Failure.orElse_exhausted (hrun a s why' v hv) hbest))
        why t h

theorem tryEach_upheld {run run' : α → Search ρ} {otherwise otherwise' : Option Failure → Search ρ}
    (hrun : ∀ a, Upheld T (run a) (run' a))
    (hother : ∀ best : Option Failure, (∀ b ∈ best, b.Mild) →
      Upheld T (otherwise best) (otherwise' best))
    (hstop : ∀ best s, best.isExhausted = true → Prevails T (otherwise (some best)) s)
    {as : List α} {best : Option Failure} (hbest : ∀ b ∈ best, b.Mild) :
    Upheld T (tryEach T run otherwise as best) (tryEach T run' otherwise' as best) := by
  induction as generalizing best with
  | nil => exact hother best hbest
  | cons a as ih =>
    refine (hrun a).attempt.recover (fun why hwhy => ?_) fun why t hwhy hstopped => ?_
    · refine unlessSpent_upheld hwhy (ih ?_)
      simpa using Failure.orElse_mild hwhy hbest
    · refine unlessSpent_prevails fun hspent => ?_
      exact tryEach_prevails (fun a => (hrun a).mild) hstop
        (Failure.exhausted_orElse (hstopped.exhausted hspent) hbest)

/-! ## Bridges -/

/-- A bridge may turn a failure into another only if no limit had a part in it. -/
theorem bridging_upheld {search search' : (Proof → Search ρ) → Search ρ} {k k' : Proof → Search ρ}
    {onFailure : Bool → Failure → Search ρ}
    (hsearch : ∀ cross cross' : Proof → Search ρ, (∀ p, Upheld T (cross p) (cross' p)) →
      Upheld T (search cross) (search' cross'))
    (hk : ∀ p, Upheld T (k p) (k' p))
    (hfail : ∀ crossed why, why.Mild → (onFailure crossed why).Mild)
    (hstop : ∀ crossed why s, T.Stopped why s → Prevails T (onFailure crossed why) s) :
    Upheld T (bridging search k onFailure) (bridging search' k' onFailure) := by
  refine .after .beginBridge fun number => ?_
  refine (hsearch _ _ fun p => .after .enterLedger fun _ => hk p).recover ?_ ?_
  · intro why hwhy
    exact Upheld.ledger fun l => .after .enterLedger fun _ => .refl (hfail _ why hwhy)
  · intro why t _ hstopped
    exact hstop _ why { t with ledger := { t.ledger with crossed := _ } } hstopped

/-! ## Provers -/

variable {prove prove' : Prover} {k k' : Proof → Search ρ} {further : List Hypothesis}

/-- The failures of the first prover are upheld by the second, if those of its continuation are. -/
def ProverUpheld (T : Theory) (prove prove' : Prover) : Prop :=
  ∀ ⦃ρ : Type⦄ ⦃goal : Goal⦄ ⦃k k' : Proof → Search ρ⦄, (∀ p, Upheld T (k p) (k' p)) →
    Upheld T (prove ρ goal k) (prove' ρ goal k')

theorem ProverUpheld.proveAssuming (hprove : ProverUpheld T prove prove')
    (hk : ∀ p, Upheld T (k p) (k' p)) :
    Upheld T (proveAssuming prove further goal k) (proveAssuming prove' further goal k') :=
  .after .hyps fun _ => (hprove fun p => (hk p).withdrawing).within fun _ => rfl

theorem ProverUpheld.proveAll (hprove : ProverUpheld T prove prove')
    {k k' : List Proof → Search ρ} (hk : ∀ ps, Upheld T (k ps) (k' ps)) {goals : List Goal}
    {done : List Proof} :
    Upheld T (proveAll prove k goals done) (proveAll prove' k' goals done) := by
  induction goals generalizing done with
  | nil => exact hk done
  | cons g goals ih => exact hprove fun p => ih

/-! ## The solver -/

/-- The method hides no limit from those who use it, if the prover that it is given does not. -/
def Candid (T : Theory) (method : Method) : Prop :=
  ∀ ⦃prove prove' : Prover⦄, ProverUpheld T prove prove' →
    ∀ ⦃ρ : Type⦄ ⦃name : String⦄ ⦃goal : Goal⦄ ⦃emit emit' : Reduction → Search ρ⦄,
      (∀ r, Upheld T (emit r) (emit' r)) →
      Upheld T (method.run T prove name goal emit) (method.run T prove' name goal emit')

/-- A method that makes one reduction of a goal and raises no goals itself. -/
theorem Candid.of_mild {method : Method} (reduce : Goal → Search Reduction)
    (hrun : ∀ {ρ : Type} (prove : Prover) (name : String) (goal : Goal)
      (emit : Reduction → Search ρ), method.run T prove name goal emit = reduce goal >>= emit)
    (h : ∀ goal, (reduce goal).Mild) : Candid T method := by
  intro prove prove' _ ρ name goal emit emit' hemit
  rw [hrun, hrun]
  exact .bind (h goal) hemit

theorem applyRule_upheld {rule : Rule} (hrule : Candid T rule.method)
    (hprove : ProverUpheld T prove prove') (hk : ∀ p, Upheld T (k p) (k' p)) :
    Upheld T (applyRule T prove goal k rule) (applyRule T prove' goal k' rule) :=
  hrule hprove fun _ => hprove.proveAll fun _ => hk _

/-- Only a limit makes the rules fail if that is so of the rules after the first, from where the
first one leaves off. -/
theorem tryRules_cons_prevails {rule : Rule} {rules : List Rule} {best : Option Failure}
    (htried : rule.pattern.fits s.subst goal = true → ∀ s₁ why u v, s.Kept s₁ →
      (applyRule T prove goal k rule).run s₁ = .failure why u → (s₁.Grown u → s.Kept v) →
      T.spent u.ledger = false →
      Prevails T (tryRules T prove goal k rules (some (why.orElse best))) v)
    (hskipped : rule.pattern.fits s.subst goal = false →
      Prevails T (tryRules T prove goal k rules best) s) :
    Prevails T (tryRules T prove goal k (rule :: rules) best) s := by
  let stepped : State := s.counted fun n => { n with steps := n.steps + 1 }
  have hstepped : s.Kept stepped := s.kept_counted fun n => by simp [Stats.le_def]
  intro why t h
  rw [tryRules] at h
  change (if rule.pattern.fits s.subst goal = true then _ else _ : Search ρ).run s = _ at h
  split at h
  · next hfits =>
    change (if T.spent s.ledger = true then _ else _ : Search ρ).run s = _ at h
    split at h
    · exact Prevails.exhausted why t h
    · change (Search.recover (attempt (applyRule T prove goal k rule)) _).run stepped = _ at h
      rw [run_recover] at h
      cases ha : (attempt (applyRule T prove goal k rule)).run stepped with
      | success a u => simp [ha] at h
      | overflow l => simp [ha] at h
      | failure why' u =>
        simp only [ha] at h
        obtain ⟨u, hu, rfl⟩ := attempt_failure ha
        let taken : State :=
          (u.undo stepped.mark).counted fun n => { n with backtracks := n.backtracks + 1 }
        have htaken : (u.undo stepped.mark).Kept taken :=
          State.kept_counted _ fun n => by simp [Stats.le_def]
        exact unlessSpent_prevails (htried hfits stepped why' u taken hstepped hu fun hgrown =>
          (hstepped.trans hgrown.kept_undo).trans htaken) why t h
  · next hfits => exact hskipped (by simpa using hfits) why t h

/-- Once a limit was reached by a rule, only a limit makes all of them fail. -/
theorem tryRules_prevails {rules : List Rule}
    (hrules : ∀ rule ∈ rules, (applyRule T prove goal k rule).Mild) {best : Failure}
    (hbest : best.isExhausted = true) :
    Prevails T (tryRules T prove goal k rules (some best)) s := by
  induction rules generalizing s best with
  | nil => exact Prevails.fail (.inl hbest)
  | cons rule rules ih =>
    rw [List.forall_mem_cons] at hrules
    refine tryRules_cons_prevails (fun _ s₁ why u v _ hrun _ _ => ?_) fun _ => ih hrules.2 hbest
    exact ih hrules.2 (Failure.orElse_exhausted (hrules.1 s₁ why u hrun) hbest)

theorem tryRules_upheld {rules : List Rule} (hrules : ∀ rule ∈ rules, Candid T rule.method)
    (hprove : ProverUpheld T prove prove') (hk : ∀ p, Upheld T (k p) (k' p))
    {best : Option Failure} (hbest : ∀ b ∈ best, b.Mild) :
    Upheld T (tryRules T prove goal k rules best) (tryRules T prove' goal k' rules best) := by
  induction rules generalizing best with
  | nil => exact failBest_upheld hbest .noRule
  | cons rule rules ih =>
    have hmild : ∀ rule ∈ rules, (applyRule T prove goal k rule).Mild := fun rule hrule =>
      (applyRule_upheld (hrules rule (List.mem_cons_of_mem _ hrule)) hprove hk).mild
    rw [List.forall_mem_cons] at hrules
    refine Upheld.subst fun σ => ?_
    split
    · refine Upheld.ledger fun l => ?_
      split
      · exact .refl .exhausted
      · refine Upheld.count ((applyRule_upheld hrules.1 hprove hk).attempt.recover ?_ ?_)
        · intro why hwhy
          refine Upheld.count (unlessSpent_upheld hwhy (ih hrules.2 ?_))
          simpa using Failure.orElse_mild hwhy hbest
        · intro why t _ hstopped
          have hrest : Prevails T
              (unlessSpent T why (tryRules T prove goal k rules (some (why.orElse best))))
              (t.counted fun n => { n with backtracks := n.backtracks + 1 }) :=
            unlessSpent_prevails fun hspent => tryRules_prevails hmild
              (Failure.exhausted_orElse (hstopped.exhausted hspent) hbest)
          exact hrest
    · exact ih hrules.2 hbest

theorem solveResolved_upheld (hrules : ∀ rule ∈ T.rules, Candid T rule.method)
    (hprove : ProverUpheld T prove prove') (hk : ∀ p, Upheld T (k p) (k' p)) :
    Upheld T (solveResolved T prove goal k) (solveResolved T prove' goal k') := by
  refine Upheld.active fun gs => ?_
  split
  · exact .refl (.fail (Failure.mild_noRule _))
  · exact (tryRules_upheld hrules hprove (fun p => (hk p).outside) (by simp)).inside

/-- The prover of a theory that leaves the goals for which it has no room to another prover. -/
def solveOver (T : Theory) (deep : Prover) : Nat → Prover
  | 0 => deep
  | room + 1 => fun _ goal k => do
    if T.spent (← ledger) then exhausted
    else solveResolved T (solveOver T deep room) (goal.resolve (← subst)) k

/-- More room is room for what is left over. -/
theorem solve_add (T : Theory) (room more : Nat) :
    solve T (room + more) = solveOver T (solve T more) room := by
  induction room with
  | zero => rw [Nat.zero_add]; rfl
  | succ room ih =>
    rw [Nat.succ_add, solve, solveOver, ih]

/-- Failures of the solver are upheld whatever is done where there is no room. -/
theorem solve_upheld (hrules : ∀ rule ∈ T.rules, Candid T rule.method) (deep : Prover)
    (room : Nat) : ProverUpheld T (solve T room) (solveOver T deep room) := by
  induction room with
  | zero =>
    intro ρ goal k k' _
    exact .of_stopped .exhausted fun s => Prevails.exhausted
  | succ room ih =>
    intro ρ goal k k' hk
    refine Upheld.ledger fun l => ?_
    split
    · exact .refl .exhausted
    · exact Upheld.subst fun σ => solveResolved_upheld hrules ih hk

end Search

end Monotonicity
