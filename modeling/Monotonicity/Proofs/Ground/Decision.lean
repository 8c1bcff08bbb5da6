import Monotonicity.Proofs.Order.Atomic

/-!
# Searches that decide

A search decides a proposition if it succeeds only where the proposition holds, and fails only where
it does not, as long as there are steps to go on. No depth is refused in such a search, nothing is
bound, and nothing is put off.

What is decided is put together as the search is. Alternatives decide whether one of them leads to a
proof, whichever comes first and however often one is repeated; a goal that is handed to a
continuation decides a conjunction. There is one rule here for each way of making searches, up to
`solve_decides`: a solver decides whether one of the rules that the goal fits leads to a proof.
-/

namespace Monotonicity

open Search

namespace Search

variable {α β ρ : Type} {T : Theory} {m m' : Search α} {f : α → Search β} {s t : State} {a : α}
  {goal : Goal} {why : Failure} {best : Option Failure} {P Q : Prop}

/-! ## Refusals -/

/-- The search fails, though not for a limit, and leaves the state as it was but for the ledger. -/
def Refuses (m : Search α) (s : State) : Prop :=
  ∃ why t, m.run s = .failure why t ∧ s.Kept t ∧ why.isExhausted = false

namespace Refuses

theorem fail (h : why.isExhausted = false) : (fail why : Search α).Refuses s :=
  ⟨why, s, rfl, .refl s, h⟩

theorem noRule : (noRule goal : Search α).Refuses s := ⟨_, s, rfl, .refl s, rfl⟩

theorem noCandidate : (noCandidate goal : Search α).Refuses s := ⟨_, s, rfl, .refl s, rfl⟩

theorem gap : (gap goal : Search α).Refuses s := ⟨_, s, rfl, .refl s, rfl⟩

theorem subst {f : Subst → Search β} (h : (f s.subst).Refuses s) : (subst >>= f).Refuses s := h

theorem bind (h : m.Refuses s) : (m >>= f).Refuses s := by
  obtain ⟨why, t, hrun, ht⟩ := h
  exact ⟨why, t, by rw [run_bind, hrun], ht⟩

end Refuses

theorem Gives.refuses (hm : m.Gives s a) (hf : ∀ t, s.Kept t → (f a).Refuses t) :
    (m >>= f).Refuses s := by
  obtain ⟨t, hrun, ht⟩ := hm
  obtain ⟨why, u, hrun', hu, hwhy⟩ := hf t ht
  exact ⟨why, u, by rw [run_bind, hrun]; exact hrun', ht.trans hu, hwhy⟩

/-! ## Decisions -/

/-- The search succeeds only if the proposition holds, and without putting anything off. If it
fails, it leaves the state as it was but for the ledger; then the proposition does not hold and no
limit is the cause, unless the steps are used up. -/
def Decides (T : Theory) (m : Search α) (s : State) (P : Prop) : Prop :=
  match m.run s with
  | .success _ t => P ∧ t.delayed = s.delayed
  | .failure why t => s.Kept t ∧ (P ∨ why.isExhausted = true → T.spent t.ledger = true)
  | .overflow _ => True

namespace Decides

theorem of_success (h : Decides T m s P) (hrun : m.run s = .success a t) :
    P ∧ t.delayed = s.delayed := by
  simpa only [Decides, hrun] using h

theorem of_failure (h : Decides T m s P) (hrun : m.run s = .failure why t) :
    s.Kept t ∧ (P ∨ why.isExhausted = true → T.spent t.ledger = true) := by
  simpa only [Decides, hrun] using h

theorem congr (h : Decides T m s P) (hPQ : P ↔ Q) : Decides T m s Q := by
  rwa [← propext hPQ]

/-- The run comes to a state that differs by its ledger only. -/
theorem of_run (h : Decides T m' t P) (ht : s.Kept t) (hrun : m.run s = m'.run t) :
    Decides T m s P := by
  unfold Decides
  rw [hrun]
  cases hm : m'.run t with
  | success a u =>
    obtain ⟨hP, hu⟩ := h.of_success hm
    exact ⟨hP, hu.trans ht.delayed⟩
  | failure why u =>
    obtain ⟨hu, hwhy⟩ := h.of_failure hm
    exact ⟨ht.trans hu, hwhy⟩
  | overflow l => trivial

theorem of_refuses (h : m.Refuses s) (hP : ¬ P) : Decides T m s P := by
  obtain ⟨why, t, hrun, ht, hwhy⟩ := h
  unfold Decides
  rw [hrun]
  exact ⟨ht, by simp [hP, hwhy]⟩

theorem of_gives (hm : m.Gives s a) (h : ∀ t, s.Kept t → Decides T (f a) t P) :
    Decides T (m >>= f) s P := by
  obtain ⟨t, hrun, ht⟩ := hm
  exact (h t ht).of_run ht (by rw [run_bind, hrun])

theorem of_gets {R : α → State → Prop} (hm : m.Gets s fun a t => s.Kept t ∧ R a t)
    (htotal : m.Total) (h : ∀ a t, s.Kept t → R a t → Decides T (f a) t P) :
    Decides T (m >>= f) s P := by
  cases hrun : m.run s with
  | success a t =>
    obtain ⟨-, ht, ha⟩ := hm.of_success hrun
    exact (h a t ht ha).of_run ht (by rw [run_bind, hrun])
  | failure why t => exact (htotal s why t hrun).elim
  | overflow l =>
    unfold Decides
    rw [run_bind, hrun]
    trivial

theorem pure (h : P) : Decides T (pure a : Search α) s P := ⟨h, rfl⟩

theorem fail (h : P ∨ why.isExhausted = true → T.spent s.ledger = true) :
    Decides T (fail why : Search α) s P :=
  ⟨.refl s, h⟩

/-- Nothing is asked of a search that has used up its steps. -/
theorem spent (hrun : m.run s = .failure why s) (h : T.spent s.ledger = true) :
    Decides T m s P := by
  unfold Decides
  rw [hrun]
  exact ⟨.refl s, fun _ => h⟩

theorem subst {f : Subst → Search β} (h : Decides T (f s.subst) s P) :
    Decides T (subst >>= f) s P :=
  h.of_run (.refl s) rfl

theorem active {f : List Goal → Search β} (h : Decides T (f s.active) s P) :
    Decides T (active >>= f) s P :=
  h.of_run (.refl s) rfl

theorem ledger {f : Ledger → Search β} (h : Decides T (f s.ledger) s P) :
    Decides T (ledger >>= f) s P :=
  h.of_run (.refl s) rfl

/-- What is counted does not matter. -/
theorem count {g : Stats → Stats} (hg : ∀ n, n ≤ g n) {f : Unit → Search β}
    (h : Decides T (f ()) (s.counted g) P) : Decides T (count g >>= f) s P :=
  h.of_run (s.kept_counted hg) rfl

/-! ## Alternatives -/

theorem unlessSpent (h : T.spent s.ledger = false → Decides T m s P) :
    Decides T (unlessSpent T why m) s P := by
  refine .ledger ?_
  split
  · next hspent => exact .spent rfl hspent
  · next hspent => exact h (by simpa using hspent)

/-- If an alternative fails with steps to go on then it does not lead to a proof, and the rest
decides. -/
theorem attempt {handler : Failure → Search α} (h : Decides T m s P) (hPQ : P → Q)
    (hh : ∀ why t, s.Kept t → (T.spent t.ledger = false → ¬ P ∧ why.isExhausted = false) →
      Decides T (handler why) t Q) : Decides T ((attempt m).recover handler) s Q := by
  cases hm : m.run s with
  | success a t =>
    obtain ⟨hP, ht⟩ := h.of_success hm
    simpa only [Decides, run_recover, Search.attempt, hm] using And.intro (hPQ hP) ht
  | overflow l => simp only [Decides, run_recover, Search.attempt, hm]
  | failure why t =>
    obtain ⟨ht, hwhy⟩ := h.of_failure hm
    refine (hh why (t.undo s.mark) ht.grown.kept_undo fun hspent => ?_).of_run
      ht.grown.kept_undo (by simp only [run_recover, Search.attempt, hm])
    have hnot : ¬ (P ∨ why.isExhausted = true) := fun hc =>
      Bool.false_ne_true (hspent.symm.trans (hwhy hc))
    simpa using hnot

theorem tryEach {run : β → Search α} {otherwise : Option Failure → Search α} {as : List β}
    {R : β → Prop} (hrun : ∀ a ∈ as, ∀ t, s.Kept t → Decides T (run a) t (R a))
    (hother : ∀ best t, s.Kept t → (∀ b ∈ best, b.isExhausted = false) →
      Decides T (otherwise best) t Q)
    (hbest : ∀ b ∈ best, b.isExhausted = false) :
    Decides T (tryEach T run otherwise as best) s ((∃ a ∈ as, R a) ∨ Q) := by
  induction as generalizing s best with
  | nil => exact (hother best s (.refl s) hbest).congr (by simp)
  | cons a as ih =>
    rw [List.forall_mem_cons] at hrun
    refine .attempt (hrun.1 s (.refl s)) (fun ha => .inl ⟨a, List.mem_cons_self, ha⟩)
      fun why t ht hwhy => .unlessSpent fun hspent => ?_
    obtain ⟨hnot, hcause⟩ := hwhy hspent
    refine (ih ?_ ?_ ?_).congr (by simp [hnot])
    · exact fun b hb u hu => hrun.2 b hb u (ht.trans hu)
    · exact fun best u hu => hother best u (ht.trans hu)
    · simpa using Failure.not_exhausted_orElse hcause hbest

theorem failBest (h : m.Refuses s) (hbest : ∀ b ∈ best, b.isExhausted = false) (hP : ¬ P) :
    Decides T (failBest m best) s P := by
  cases best with
  | none => exact .of_refuses h hP
  | some b => exact .of_refuses (.fail (hbest b rfl)) hP

/-- An inclusion that is not proved is no bridge. -/
theorem bridging {search : (Proof → Search ρ) → Search ρ} {k : Proof → Search ρ}
    {onFailure : Bool → Failure → Search ρ}
    (hsearch : ∀ cross t, s.Kept t → Decides T (search cross) t False)
    (hfail : ∀ crossed why t, (why.isExhausted = true → T.spent t.ledger = true) →
      Decides T (onFailure crossed why) t False) :
    Decides T (bridging search k onFailure) s False := by
  let begun : State := { s with ledger := { s.ledger with bridges := s.ledger.bridges + 1 } }
  have hbegun : s.Kept begun := kept_ledger (.begin s.ledger)
  let cross (p : Proof) : Search ρ := do
    enterLedger fun l => { l with crossed := l.crossed.insert s.ledger.bridges }
    k p
  have hrun : (Search.bridging search k onFailure).run s = (Search.recover (search cross) fun why => do
      let crossed := (← Search.ledger).crossed.contains s.ledger.bridges
      enterLedger fun l => { l with crossed := l.crossed.erase s.ledger.bridges }
      onFailure crossed why).run begun := rfl
  cases hm : (search cross).run begun with
  | success p u => exact ((hsearch cross begun hbegun).of_success hm).1.elim
  | overflow l => simp only [Decides, hrun, run_recover, hm]
  | failure why u =>
    obtain ⟨hu, hwhy⟩ := (hsearch cross begun hbegun).of_failure hm
    refine (hfail (u.ledger.crossed.contains s.ledger.bridges) why _ fun hc => ?_).of_run
      ((hbegun.trans hu).erase le_rfl) (by simp only [hrun, run_recover, hm]; rfl)
    exact hwhy (.inr hc)

/-! ## Scopes -/

theorem within {before after : State → State}
    (hback : ∀ t, (before s).Kept t → s.Kept (after t))
    (hledger : ∀ t, (after t).ledger = t.ledger) (hdelayed : ∀ t, (after t).delayed = t.delayed)
    (hbefore : (before s).delayed = s.delayed) (h : Decides T m (before s) P) :
    Decides T (within before after m) s P := by
  unfold Decides Search.within
  dsimp only
  cases hm : m.run (before s) with
  | success a t =>
    obtain ⟨hP, ht⟩ := h.of_success hm
    exact ⟨hP, (hdelayed t).trans (ht.trans hbefore)⟩
  | failure why t =>
    obtain ⟨ht, hwhy⟩ := h.of_failure hm
    exact ⟨hback t ht, fun hc => by rw [hledger]; exact hwhy hc⟩
  | overflow l => trivial

/-- A goal is no longer in progress for the continuation. -/
theorem outside (hs : (s.enter goal).Kept t) (h : Decides T m t.leave P) :
    Decides T (outside goal m) t P :=
  within (fun _ hu => hs.enter_leave hu) (fun _ => rfl) (fun _ => rfl) rfl h

end Decides

/-! ## The solver -/

variable {prove : Prover} {k : Proof → Search ρ} {room : Nat} {R : Rule → Prop}

theorem tryRules_decides {rules : List Rule}
    (hrules : ∀ rule ∈ rules, rule.pattern.fits s.subst goal = true → ∀ t, s.Kept t →
      Decides T (applyRule T prove goal k rule) t (R rule))
    (hbest : ∀ b ∈ best, b.isExhausted = false) :
    Decides T (tryRules T prove goal k rules best) s
      (∃ rule ∈ rules, rule.pattern.fits s.subst goal = true ∧ R rule) := by
  induction rules generalizing s best with
  | nil => exact .failBest .noRule hbest (by simp)
  | cons rule rules ih =>
    rw [List.forall_mem_cons] at hrules
    refine .subst ?_
    split
    · next hfits =>
      refine .ledger ?_
      split
      · next hspent => exact .spent rfl hspent
      · refine .count (fun n => by simp [Stats.le_def]) ?_
        have hstepped : s.Kept (s.counted fun n => { n with steps := n.steps + 1 }) :=
          s.kept_counted fun n => by simp [Stats.le_def]
        refine .attempt (hrules.1 hfits _ hstepped)
          (fun hr => ⟨rule, List.mem_cons_self, hfits, hr⟩) fun why t ht hwhy => ?_
        refine .count (fun n => by simp [Stats.le_def]) (.unlessSpent fun hspent => ?_)
        obtain ⟨hnot, hcause⟩ := hwhy hspent
        have hst : s.Kept (t.counted fun n => { n with backtracks := n.backtracks + 1 }) :=
          (hstepped.trans ht).trans (t.kept_counted fun n => by simp [Stats.le_def])
        refine (ih (fun r hr hfits u hu => ?_) ?_).congr ?_
        · rw [hst.subst] at hfits
          exact hrules.2 r hr hfits u (hst.trans hu)
        · simpa using Failure.not_exhausted_orElse hcause hbest
        · rw [hst.subst]
          simp [hnot]
    · next hfits => exact (ih hrules.2 hbest).congr (by simp [hfits])

/-- The solver decides whether one of the rules that the goal fits leads to a proof, unless the goal
is in progress. -/
theorem solve_decides (hgoal : goal.resolve s.subst = goal)
    (hrules : ∀ rule ∈ T.rules, rule.pattern.fits s.subst goal = true →
      ∀ t, (s.enter goal).Kept t →
        Decides T (applyRule T (solve T room) goal (fun p => outside goal (k p)) rule) t (R rule)) :
    Decides T (solve T (room + 1) ρ goal k) s
      (goal ∉ s.active ∧ ∃ rule ∈ T.rules, rule.pattern.fits s.subst goal = true ∧ R rule) := by
  refine .ledger ?_
  split
  · next hspent => exact .spent rfl hspent
  · refine .subst ?_
    rw [hgoal]
    refine .active ?_
    split
    · next hold => exact .of_refuses (.fail rfl) fun h => h.1 (by simpa using hold)
    · next hnew =>
      let counted : State := s.counted fun n => { n with maxDepth := max n.maxDepth (s.depth + 1) }
      have hcounted : s.Kept counted := s.kept_counted fun n => by simp [Stats.le_def]
      have hentered : (s.enter goal).Kept (counted.enter goal) :=
        ⟨rfl, rfl, rfl, rfl, rfl, hcounted.ledger⟩
      have hinner : Decides T
          (tryRules T (solve T room) goal (fun p => outside goal (k p)) T.rules none)
          (counted.enter goal)
          (∃ rule ∈ T.rules, rule.pattern.fits s.subst goal = true ∧ R rule) := by
        refine tryRules_decides (fun rule hrule hfits t ht => ?_) (by simp)
        exact hrules rule hrule hfits t (hentered.trans ht)
      have hinside : Decides T (within (·.enter goal) State.leave (tryRules T (solve T room) goal
          (fun p => outside goal (k p)) T.rules none)) counted _ :=
        .within (fun t ht => ht.of_enter) (fun _ => rfl) (fun _ => rfl) rfl hinner
      have hnew' : goal ∉ s.active := by simpa using hnew
      exact (hinside.congr (by simp [hnew'])).of_run hcounted rfl

end Search

/-! ## Answers -/

namespace Engine

variable {E : Engine} {goal : Goal} {sol : Solution} {P : Prop}

/-- An answer with steps to spare says whether what its search decides holds: it is a proof outright
if so, and otherwise a failure that is not for a limit. -/
theorem answer_of_decides
    (hdecides : ∀ bound, Decides E.theory (E.search goal) (E.start bound) P)
    (h : (E.solve goal).1.result = .ok sol) (hsteps : sol.stats.steps < E.theory.limits.fuel) :
    (P → sol.isSolved = true) ∧
      (¬ P → ∃ why, sol.verdict = .failed why ∧ why.isExhausted = false) := by
  obtain ⟨bound, -, ⟨p, final, hrun, rfl⟩ | ⟨why, final, hrun, rfl⟩⟩ := solve_eq_ok h
  · obtain ⟨hP, hdelayed⟩ := (hdecides bound).of_success hrun
    refine ⟨fun _ => ?_, fun hnot => (hnot hP).elim⟩
    rw [Solution.isSolved_ofProof, hdelayed]
    rfl
  · have hspent : ¬ E.theory.spent final.ledger = true := by
      simpa [Theory.spent, Solution.ofFailure, Solution.ofState] using hsteps
    have hnot := mt ((hdecides bound).of_failure hrun).2 hspent
    rw [not_or] at hnot
    exact ⟨fun hP => (hnot.1 hP).elim, fun _ => ⟨why, rfl, by simpa using hnot.2⟩⟩

end Engine

end Monotonicity
