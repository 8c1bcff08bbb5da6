import Monotonicity.Proofs.Limit.Basic

/-!
# Searches that meet no limit but their steps

In a calm search nothing is bound, assumed or put off by what fails, and a failure says that a limit
was reached only if the steps are used up. No depth is refused in such a search, and it does not run
out of placeholders if none are set aside. There is one rule here for each way of making searches,
up to `solve_calm`: for a solver it is enough that every application of a rule is calm.
-/

namespace Monotonicity

open Search

/-- No placeholders are set aside for the registered inclusions. -/
def Registry.Flat (r : Registry) : Prop := ∀ f ∈ r.inclusions, f.schematic = 0

/-- Nothing but the ledger has changed, and no placeholders were set aside unless some inclusion
asks for them. -/
structure Theory.Still (T : Theory) (s t : State) : Prop where
  kept : s.Kept t
  nextVar : T.registry.Flat → t.ledger.nextVar = s.ledger.nextVar

namespace Theory.Still

variable {T : Theory} {s t u : State} {goal : Goal}

theorem refl (s : State) : T.Still s s := ⟨.refl s, fun _ => rfl⟩

theorem trans (h : T.Still s t) (h' : T.Still t u) : T.Still s u :=
  ⟨h.kept.trans h'.kept, fun hflat => (h'.nextVar hflat).trans (h.nextVar hflat)⟩

theorem counted {g : Stats → Stats} (hg : ∀ n, n ≤ g n) : T.Still s (s.counted g) :=
  ⟨s.kept_counted hg, fun _ => rfl⟩

/-- Going back to a mark changes nothing. -/
theorem undo (h : T.Still s t) : T.Still s (t.undo s.mark) :=
  ⟨h.kept.grown.kept_undo, h.nextVar⟩

theorem of_enter (h : T.Still (s.enter goal) t) : T.Still s t.leave :=
  ⟨h.kept.of_enter, h.nextVar⟩

theorem enter_leave (hs : T.Still (s.enter goal) t) (h : T.Still t.leave u) :
    T.Still t (u.enter goal) :=
  ⟨hs.kept.enter_leave h.kept, h.nextVar⟩

end Theory.Still

namespace Failure

/-- Of two failures neither of which is for a limit none is reported that is. -/
theorem not_exhausted_orElse {why : Failure} {earlier : Option Failure}
    (h : why.isExhausted = false) (hbest : ∀ b ∈ earlier, b.isExhausted = false) :
    (why.orElse earlier).isExhausted = false := by
  cases earlier with
  | none => exact h
  | some b =>
    simp only [orElse]
    split
    · exact hbest b rfl
    · exact h

end Failure

namespace Search

variable {α β ρ : Type} {T : Theory} {m : Search α} {f : α → Search β} {s t : State} {goal : Goal}
  {why : Failure} {best : Option Failure} {Q : α → State → Prop}

/-- The search is calm from the state, and what it finds is as said. -/
def Calm (T : Theory) (m : Search α) (s : State) (Q : α → State → Prop) : Prop :=
  match m.run s with
  | .success a t => Q a t
  | .failure why t => T.Still s t ∧ (why.isExhausted = true → T.spent t.ledger = true)
  | .overflow _ => ¬ (T.registry.Flat ∧ s.ledger.nextVar < indexBound)

namespace Calm

theorem of_success (h : Calm T m s Q) {a : α} (hrun : m.run s = .success a t) : Q a t := by
  simpa [Calm, hrun] using h

theorem of_failure (h : Calm T m s Q) (hrun : m.run s = .failure why t) :
    T.Still s t ∧ (why.isExhausted = true → T.spent t.ledger = true) := by
  simpa only [Calm, hrun] using h

theorem not_overflow (h : Calm T m s Q) {l : Ledger} (hrun : m.run s = .overflow l) :
    ¬ (T.registry.Flat ∧ s.ledger.nextVar < indexBound) := by
  simpa only [Calm, hrun] using h

theorem mono {R : α → State → Prop} (h : Calm T m s Q) (hQ : ∀ a t, Q a t → R a t) :
    Calm T m s R := by
  unfold Calm at h ⊢
  split at h
  · exact hQ _ _ h
  · exact h
  · exact h

theorem pure {a : α} (h : Q a s) : Calm T (pure a : Search α) s Q := h

theorem fail (h : why.isExhausted = true → T.spent s.ledger = true) :
    Calm T (fail why : Search α) s Q :=
  ⟨.refl s, h⟩

theorem noRule : Calm T (noRule goal : Search α) s Q :=
  ⟨.refl s, fun h => by cases h⟩

theorem exhausted (h : T.spent s.ledger = true) : Calm T (exhausted : Search α) s Q :=
  ⟨.refl s, fun _ => h⟩

theorem bind {Q : β → State → Prop}
    (h : Calm T m s fun a t => T.Still s t ∧ Calm T (f a) t Q) : Calm T (m >>= f) s Q := by
  unfold Calm
  rw [run_bind]
  cases hm : m.run s with
  | success a t =>
    obtain ⟨ht, hf⟩ := h.of_success hm
    dsimp only
    cases hrun : (f a).run t with
    | success b u => exact hf.of_success hrun
    | failure why u =>
      obtain ⟨hu, hwhy⟩ := hf.of_failure hrun
      exact ⟨ht.trans hu, hwhy⟩
    | overflow l =>
      rintro ⟨hflat, hnext⟩
      exact hf.not_overflow hrun ⟨hflat, by rwa [ht.nextVar hflat]⟩
  | failure why t => exact h.of_failure hm
  | overflow l => exact h.not_overflow hm

theorem subst {f : Subst → Search β} {Q : β → State → Prop} (h : Calm T (f s.subst) s Q) :
    Calm T (subst >>= f) s Q := h

theorem depth {f : Nat → Search β} {Q : β → State → Prop} (h : Calm T (f s.depth) s Q) :
    Calm T (depth >>= f) s Q := h

theorem active {f : List Goal → Search β} {Q : β → State → Prop} (h : Calm T (f s.active) s Q) :
    Calm T (active >>= f) s Q := h

theorem ledger {f : Ledger → Search β} {Q : β → State → Prop} (h : Calm T (f s.ledger) s Q) :
    Calm T (ledger >>= f) s Q := h

/-- What is counted does not matter. -/
theorem count {g : Stats → Stats} (hg : ∀ n, n ≤ g n) {f : Unit → Search β}
    {Q : β → State → Prop} (h : Calm T (f ()) (s.counted g) Q) :
    Calm T (count g >>= f) s Q :=
  bind (m := Search.count g) ⟨.counted hg, h⟩

/-! ## Alternatives -/

theorem unlessSpent (hwhy : why.isExhausted = true → T.spent s.ledger = true)
    (h : T.spent s.ledger = false → Calm T m s Q) : Calm T (unlessSpent T why m) s Q := by
  refine ledger ?_
  split
  · exact fail hwhy
  · next hspent => exact h (by simpa using hspent)

/-- An alternative is taken back if it fails. -/
theorem attempt {handler : Failure → Search α} (h : Calm T m s Q)
    (hh : ∀ why t, T.Still s t → (why.isExhausted = true → T.spent t.ledger = true) →
      Calm T (handler why) t Q) : Calm T ((attempt m).recover handler) s Q := by
  unfold Calm
  rw [run_recover]
  cases hm : m.run s with
  | success a t => simpa [Search.attempt, hm] using h.of_success hm
  | overflow l => simpa only [Search.attempt, hm] using h.not_overflow hm
  | failure why t =>
    obtain ⟨ht, hwhy⟩ := h.of_failure hm
    have hback := hh why (t.undo s.mark) ht.undo hwhy
    simp only [Search.attempt, hm]
    cases hrun : (handler why).run (t.undo s.mark) with
    | success a u => exact hback.of_success hrun
    | failure why' u =>
      obtain ⟨hu, hwhy'⟩ := hback.of_failure hrun
      exact ⟨ht.undo.trans hu, hwhy'⟩
    | overflow l =>
      rintro ⟨hflat, hnext⟩
      exact hback.not_overflow hrun ⟨hflat, by rwa [ht.undo.nextVar hflat]⟩

theorem tryEach {run : β → Search α} {otherwise : Option Failure → Search α} {as : List β}
    (hrun : ∀ a ∈ as, ∀ t, T.Still s t → Calm T (run a) t Q)
    (hother : ∀ best t, T.Still s t → (∀ b ∈ best, b.isExhausted = false) →
      Calm T (otherwise best) t Q)
    (hbest : ∀ b ∈ best, b.isExhausted = false) : Calm T (tryEach T run otherwise as best) s Q := by
  induction as generalizing s best with
  | nil => exact hother best s (.refl s) hbest
  | cons a as ih =>
    refine attempt (hrun a List.mem_cons_self s (.refl s)) fun why t ht hwhy => ?_
    refine unlessSpent hwhy fun hspent => ih ?_ ?_ ?_
    · exact fun b hb u hu => hrun b (List.mem_cons_of_mem _ hb) u (ht.trans hu)
    · exact fun best u hu => hother best u (ht.trans hu)
    · have hcause : why.isExhausted = false := by
        rw [hspent] at hwhy
        simpa using hwhy
      simpa using Failure.not_exhausted_orElse hcause hbest

theorem failBest (h : Calm T m s Q) (hbest : ∀ b ∈ best, b.isExhausted = false) :
    Calm T (failBest m best) s Q := by
  cases best with
  | none => exact h
  | some b => exact fail fun hb => by rw [hbest b rfl] at hb; cases hb

/-! ## Scopes -/

theorem within {before after : State → State}
    (hback : ∀ t, T.Still (before s) t → T.Still s (after t))
    (hledger : ∀ t, (after t).ledger = t.ledger)
    (hnext : (before s).ledger.nextVar = s.ledger.nextVar)
    (h : Calm T m (before s) fun _ _ => True) :
    Calm T (within before after m) s fun _ _ => True := by
  unfold Calm Search.within
  dsimp only
  cases hm : m.run (before s) with
  | success a t => trivial
  | failure why t =>
    obtain ⟨ht, hwhy⟩ := h.of_failure hm
    exact ⟨hback t ht, fun hc => by rw [hledger]; exact hwhy hc⟩
  | overflow l =>
    have hbefore := h.not_overflow hm
    rwa [hnext] at hbefore

theorem inside (h : Calm T m ((s.counted fun n =>
      { n with maxDepth := max n.maxDepth (s.depth + 1) }).enter goal) fun _ _ => True) :
    Calm T (inside goal m) s fun _ _ => True := by
  refine depth (count (fun n => by simp [Stats.le_def]) ?_)
  exact within (fun _ ht => ht.of_enter) (fun _ => rfl) rfl h

/-- A goal is no longer in progress for the continuation. -/
theorem outside (hs : T.Still (s.enter goal) t) (h : Calm T m t.leave fun _ _ => True) :
    Calm T (outside goal m) t fun _ _ => True :=
  within (fun _ hu => hs.enter_leave hu) (fun _ => rfl) rfl h

end Calm

/-! ## The solver -/

variable {prove : Prover} {k : Proof → Search ρ} {room : Nat}

theorem tryRules_calm {rules : List Rule}
    (hrules : ∀ rule ∈ rules, rule.pattern.fits s.subst goal = true → ∀ t, T.Still s t →
      Calm T (applyRule T prove goal k rule) t fun _ _ => True)
    (hbest : ∀ b ∈ best, b.isExhausted = false) :
    Calm T (tryRules T prove goal k rules best) s fun _ _ => True := by
  induction rules generalizing s best with
  | nil => exact .failBest .noRule hbest
  | cons rule rules ih =>
    rw [List.forall_mem_cons] at hrules
    refine Calm.subst ?_
    split
    · next hfits =>
      refine Calm.ledger ?_
      split
      · next hspent => exact .exhausted hspent
      · refine Calm.count (fun n => by simp [Stats.le_def]) ?_
        have hstepped : T.Still s (s.counted fun n => { n with steps := n.steps + 1 }) :=
          .counted fun n => by simp [Stats.le_def]
        refine Calm.attempt (hrules.1 hfits _ hstepped) fun why t ht hwhy => ?_
        refine Calm.count (fun n => by simp [Stats.le_def]) ?_
        have hst := (hstepped.trans ht).trans (.counted (T := T) (s := t) (g := fun n =>
          { n with backtracks := n.backtracks + 1 }) fun n => by simp [Stats.le_def])
        refine Calm.unlessSpent hwhy fun hspent => ih ?_ ?_
        · intro r hr hfits t ht
          rw [hst.kept.subst] at hfits
          exact hrules.2 r hr hfits t (hst.trans ht)
        · have hcause : why.isExhausted = false := by
            cases hc : why.isExhausted with
            | false => rfl
            | true => exact (Bool.false_ne_true (hspent.symm.trans (hwhy hc))).elim
          simpa using Failure.not_exhausted_orElse hcause hbest
    · exact ih hrules.2 hbest

/-- The solver is calm if there is room and every application of a rule to the goal is, unless the
goal is in progress. -/
theorem solve_calm (hgoal : goal.resolve s.subst = goal)
    (hrules : goal ∉ s.active → ∀ rule ∈ T.rules, rule.pattern.fits s.subst goal = true →
      ∀ t, T.Still (s.enter goal) t →
        Calm T (applyRule T (solve T room) goal (fun p => outside goal (k p)) rule) t
          fun _ _ => True) :
    Calm T (solve T (room + 1) ρ goal k) s fun _ _ => True := by
  refine Calm.ledger ?_
  split
  · next hspent => exact .exhausted hspent
  · refine Calm.subst ?_
    rw [hgoal]
    refine Calm.active ?_
    split
    · exact .fail fun h => by cases h
    · next hnew =>
      refine Calm.inside (tryRules_calm (fun rule hrule hfits t ht => ?_) (by simp))
      have hcounted : s.Kept (s.counted fun n =>
          { n with maxDepth := max n.maxDepth (s.depth + 1) }) :=
        s.kept_counted fun n => by simp [Stats.le_def]
      have hentered : T.Still (s.enter goal) (State.enter (s.counted fun n =>
          { n with maxDepth := max n.maxDepth (s.depth + 1) }) goal) :=
        ⟨⟨rfl, rfl, rfl, rfl, rfl, hcounted.ledger⟩, fun _ => rfl⟩
      exact hrules (by simpa using hnew) rule hrule hfits t (hentered.trans ht)

end Search

end Monotonicity
