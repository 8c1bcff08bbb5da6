import Monotonicity.Proofs.Limit.Basic
import Monotonicity.Proofs.Semantics.Inclusion

/-!
# Limits met behind a bridge

The search for an inclusion that is to bridge an edge hands its proofs to what lies behind the
bridge. Suppose that this fails only for causes that say at least as much as that a limit was
reached. Then no cause that the rules for inclusions give hides it, for of several causes the one
that says most is passed on: if the bridge was crossed and the search fails, its cause is as grave,
or the steps are used up. And if the bridge was not crossed, then nothing behind it was ever tried.

`Unmoved` compares two searches that differ only behind the bridge, in all states in which it was
begun. Its rules are those for the ways in which the rules for inclusions make searches.
-/

namespace Monotonicity

/-- The failure says at least as much as that a limit was reached. -/
def Failure.Grave (why : Failure) : Prop := 3 ≤ why.specificity

namespace Failure

variable {why best : Failure}

theorem grave_of_isExhausted (h : why.isExhausted = true) : why.Grave := by
  cases why <;> simp_all [Grave, specificity, isExhausted]

theorem orElse_grave (h : best.Grave) : (why.orElse (some best)).Grave := by
  unfold Grave at *
  simp only [orElse]
  split <;> omega

theorem grave_orElse (h : why.Grave) (earlier : Option Failure) : (why.orElse earlier).Grave := by
  cases earlier with
  | none => exact h
  | some b =>
    unfold Grave at *
    simp only [orElse]
    split <;> omega

end Failure

/-- The failure is grave, or the steps are used up. -/
def Theory.Halted (T : Theory) (why : Failure) (s : State) : Prop :=
  why.Grave ∨ T.spent s.ledger = true

/-- The bridge is among those begun in both states, and stays crossed if it is. -/
structure State.Retains (s t : State) (n : Nat) : Prop where
  begun : n < t.ledger.bridges
  crossed : n ∈ s.ledger.crossed → n ∈ t.ledger.crossed

namespace State

variable {s t u : State} {n : Nat}

theorem Retains.refl (h : n < s.ledger.bridges) : s.Retains s n := ⟨h, id⟩

theorem Retains.trans (h : s.Retains t n) (h' : t.Retains u n) : s.Retains u n :=
  ⟨h'.begun, fun hs => h'.crossed (h.crossed hs)⟩

theorem Grown.retains (h : s.Grown t) (hs : n < s.ledger.bridges) : s.Retains t n :=
  ⟨hs.trans_le h.ledger.bridges, h.ledger.crossed n hs⟩

end State

namespace Search

variable {α β ρ : Type} {T : Theory} {n : Nat} {m m' : Search ρ} {goal : Goal} {why : Failure}

/-! ## Grave failures prevail -/

/-- All failures of the search are grave, or come with the steps used up. -/
def Halts (T : Theory) (m : Search ρ) : Prop := ∀ s why t, m.run s = .failure why t → T.Halted why t

namespace Halts

theorem fail (h : why.Grave) : Halts T (fail why : Search ρ) := by
  intro s why' t hrun
  cases hrun
  exact .inl h

theorem after {m : Search α} {f : α → Search ρ} (hm : m.Total) (hf : ∀ a, Halts T (f a)) :
    Halts T (m >>= f) := by
  intro s why t h
  rw [run_bind] at h
  cases hrun : m.run s with
  | success a u =>
    rw [hrun] at h
    exact hf a u why t h
  | failure why' u => exact (hm s why' u hrun).elim
  | overflow l =>
    rw [hrun] at h
    cases h

/-- What is recovered from does not matter. -/
theorem recover {handler : Failure → Search ρ} (h : ∀ why, Halts T (handler why)) :
    Halts T (m.recover handler) := by
  intro s why t hrun
  rw [run_recover] at hrun
  split at hrun
  · exact h _ _ why t hrun
  · cases hrun
  · cases hrun

theorem unlessSpent (h : Halts T m) : Halts T (unlessSpent T why m) := by
  intro s why' t hrun
  change (if T.spent s.ledger = true then Search.fail why else m).run s = .failure why' t at hrun
  split at hrun
  · next hspent =>
    cases hrun
    exact .inr hspent
  · exact h s why' t hrun

end Halts

theorem tryEach_halts {run : α → Search ρ} {otherwise : Option Failure → Search ρ}
    (hother : ∀ best : Failure, best.Grave → Halts T (otherwise (some best))) {as : List α}
    {best : Failure} (hbest : best.Grave) : Halts T (tryEach T run otherwise as (some best)) := by
  induction as generalizing best with
  | nil => exact hother best hbest
  | cons a as ih => exact .recover fun why => .unlessSpent (ih (Failure.orElse_grave hbest))

theorem tryRules_halts {prove : Prover} {k : Proof → Search ρ} {rules : List Rule} {best : Failure}
    (hbest : best.Grave) : Halts T (tryRules T prove goal k rules (some best)) := by
  induction rules generalizing best with
  | nil => exact .fail hbest
  | cons rule rules ih =>
    refine .after .subst fun σ => ?_
    split
    · refine .after (fun _ _ _ h => by cases h) fun l => ?_
      split
      · intro s why t h
        cases h
        exact .inl (by simp [Failure.Grave, Failure.specificity])
      · refine .after .enterLedger fun _ => .recover fun why => .after .enterLedger fun _ => ?_
        exact .unlessSpent (ih (Failure.orElse_grave hbest))
    · exact ih hbest

/-! ## Searches that differ behind a bridge -/

/-- In a state in which the bridge was begun, the second search fails as the first one does, unless
that crossed the bridge and halts. -/
structure Unmoved (T : Theory) (n : Nat) (m m' : Search ρ) : Prop where
  retains : ∀ s why t, n < s.ledger.bridges → m.run s = .failure why t → s.Retains t n
  same : ∀ s why t, n < s.ledger.bridges → m.run s = .failure why t →
    ¬ (n ∈ t.ledger.crossed ∧ T.Halted why t) → m'.run s = .failure why t

namespace Unmoved

/-- A search that changes nothing when it fails. -/
theorem of_still (h : ∀ s why t, m.run s = .failure why t → t = s) : Unmoved T n m m :=
  ⟨fun s why t hs hrun => by rw [h s why t hrun]; exact .refl hs, fun _ _ _ _ hrun _ => hrun⟩

theorem fail : Unmoved T n (fail why : Search ρ) (Search.fail why) :=
  of_still fun s why t h => by cases h; rfl

theorem noRule : Unmoved T n (noRule goal : Search ρ) (Search.noRule goal) :=
  of_still fun s why t h => by cases h; rfl

theorem exhausted : Unmoved T n (exhausted : Search ρ) Search.exhausted :=
  of_still fun s why t h => by cases h; rfl

/-- A search that gives a value, and then two that go on from it. -/
theorem bind {m : Search α} {f f' : α → Search ρ} {Q : α → Prop}
    (hm : ∀ s, m.Gets s fun a _ => Q a) (hf : ∀ a, Q a → Unmoved T n (f a) (f' a)) :
    Unmoved T n (m >>= f) (m >>= f') := by
  refine ⟨fun s why t hs h => ?_, fun s why t hs h hnot => ?_⟩
  · rw [run_bind] at h
    cases hrun : m.run s with
    | success a u =>
      rw [hrun] at h
      obtain ⟨hu, ha⟩ := (hm s).of_success hrun
      have hsu := hu.retains hs
      exact hsu.trans ((hf a ha).retains u why t hsu.begun h)
    | failure why' u =>
      rw [hrun] at h
      cases h
      exact ((hm s).of_failure hrun).retains hs
    | overflow l =>
      rw [hrun] at h
      cases h
  · rw [run_bind] at h ⊢
    cases hrun : m.run s with
    | success a u =>
      rw [hrun] at h
      obtain ⟨hu, ha⟩ := (hm s).of_success hrun
      exact (hf a ha).same u why t (hu.retains hs).begun h hnot
    | failure why' u =>
      rw [hrun] at h
      exact h
    | overflow l =>
      rw [hrun] at h
      cases h

theorem subst {f f' : Subst → Search ρ} (h : ∀ σ, Unmoved T n (f σ) (f' σ)) :
    Unmoved T n (subst >>= f) (subst >>= f') :=
  bind (Q := fun _ => True) (fun s => ⟨.refl s, trivial⟩) fun σ _ => h σ

theorem ledger {f f' : Ledger → Search ρ} (h : ∀ l, Unmoved T n (f l) (f' l)) :
    Unmoved T n (ledger >>= f) (ledger >>= f') :=
  bind (Q := fun _ => True) (fun s => ⟨.refl s, trivial⟩) fun l _ => h l

theorem count {g : Stats → Stats} (hg : ∀ n, n ≤ g n) {f f' : Unit → Search ρ}
    (h : Unmoved T n (f ()) (f' ())) : Unmoved T n (count g >>= f) (count g >>= f') :=
  bind (Q := fun _ => True) (fun _ => (count_gets hg).mono fun _ _ _ _ => trivial) fun _ _ => h

theorem unify {a b : Term} {stop : Search ρ} (h : Unmoved T n m m') (hstop : Unmoved T n stop stop) :
    Unmoved T n (unify a b >>= fun ok => if ok = true then m else stop)
      (Search.unify a b >>= fun ok => if ok = true then m' else stop) := by
  refine bind (Q := fun _ => True) (fun _ => unify_gets.mono fun _ _ _ _ => trivial) fun ok _ => ?_
  cases ok with
  | true => exact h
  | false => exact hstop

theorem attempt (h : Unmoved T n m m') : Unmoved T n (attempt m) (Search.attempt m') := by
  refine ⟨fun s why t hs hrun => ?_, fun s why t hs hrun hnot => ?_⟩
  · obtain ⟨u, hu, rfl⟩ := attempt_failure hrun
    exact ⟨(h.retains s why u hs hu).begun, (h.retains s why u hs hu).crossed⟩
  · obtain ⟨u, hu, rfl⟩ := attempt_failure hrun
    simp [Search.attempt, h.same s why u hs hu hnot]

/-- After a grave failure, or with the steps used up, only such failures may follow. -/
theorem recover {handler handler' : Failure → Search ρ} (h : Unmoved T n m m')
    (hh : ∀ why, Unmoved T n (handler why) (handler' why))
    (hhalt : ∀ why t why' u, T.Halted why t → (handler why).run t = .failure why' u →
      T.Halted why' u) :
    Unmoved T n (m.recover handler) (m'.recover handler') := by
  refine ⟨fun s why t hs hrun => ?_, fun s why t hs hrun hnot => ?_⟩
  · rw [run_recover] at hrun
    cases hm : m.run s with
    | success a u => simp [hm] at hrun
    | overflow l => simp [hm] at hrun
    | failure why' u =>
      simp only [hm] at hrun
      have hsu := h.retains s why' u hs hm
      exact hsu.trans ((hh why').retains u why t hsu.begun hrun)
  · rw [run_recover] at hrun ⊢
    cases hm : m.run s with
    | success a u => simp [hm] at hrun
    | overflow l => simp [hm] at hrun
    | failure why' u =>
      simp only [hm] at hrun
      have hbegun := (h.retains s why' u hs hm).begun
      have hut := (hh why').retains u why t hbegun hrun
      have hu : ¬ (n ∈ u.ledger.crossed ∧ T.Halted why' u) := fun hu =>
        hnot ⟨hut.crossed hu.1, hhalt why' u why t hu.2 hrun⟩
      rw [h.same s why' u hs hm hu]
      exact (hh why').same u why t hbegun hrun hnot

theorem within {before after : State → State} (hbefore : ∀ s, (before s).ledger = s.ledger)
    (hafter : ∀ t, (after t).ledger = t.ledger) (h : Unmoved T n m m') :
    Unmoved T n (within before after m) (Search.within before after m') := by
  have hfail : ∀ s why t, (Search.within before after m).run s = .failure why t →
      ∃ u, m.run (before s) = .failure why u ∧ t = after u := by
    intro s why t hrun
    unfold Search.within at hrun
    cases hm : m.run (before s) <;> simp [hm, Outcome.mapState] at hrun
    exact ⟨_, by rw [hrun.1], hrun.2.symm⟩
  refine ⟨fun s why t hs hrun => ?_, fun s why t hs hrun hnot => ?_⟩
  · obtain ⟨u, hu, rfl⟩ := hfail s why t hrun
    have hretains := h.retains (before s) why u (by rwa [hbefore]) hu
    exact ⟨by rw [hafter]; exact hretains.begun, by
      rw [hafter, ← hbefore s]; exact hretains.crossed⟩
  · obtain ⟨u, hu, rfl⟩ := hfail s why t hrun
    unfold Theory.Halted at hnot
    rw [hafter] at hnot
    simp [Search.within, h.same _ why u (by rwa [hbefore]) hu hnot, Outcome.mapState]

theorem inside (h : Unmoved T n m m') : Unmoved T n (inside goal m) (Search.inside goal m') :=
  bind (Q := fun _ => True) (fun s => ⟨.refl s, trivial⟩) fun _ _ =>
    count (fun i => by simp [Stats.le_def]) (h.within (fun _ => rfl) fun _ => rfl)

theorem outside (h : Unmoved T n m m') : Unmoved T n (outside goal m) (Search.outside goal m') :=
  h.within (fun _ => rfl) fun _ => rfl

theorem unlessSpent (h : Unmoved T n m m') :
    Unmoved T n (unlessSpent T why m) (Search.unlessSpent T why m') := by
  refine ledger fun l => ?_
  split
  · exact fail
  · exact h

theorem failBest {best : Option Failure} (h : Unmoved T n m m) :
    Unmoved T n (failBest m best) (Search.failBest m best) := by
  cases best with
  | none => exact h
  | some b => exact fail

end Unmoved

/-- With the steps used up a failure stands, and a grave one is not forgotten. -/
theorem unlessSpent_halted {s t : State} {why' : Failure} (hnext : why.Grave → Halts T m)
    (h : T.Halted why s) (hrun : (unlessSpent T why m).run s = .failure why' t) :
    T.Halted why' t := by
  rcases h with hgrave | hspent
  · exact (Halts.unlessSpent (hnext hgrave)) s why' t hrun
  · change (if T.spent s.ledger = true then fail why else m).run s = _ at hrun
    rw [if_pos hspent] at hrun
    cases hrun
    exact .inr hspent

theorem tryEach_unmoved {run run' : α → Search ρ} {otherwise : Option Failure → Search ρ}
    (hrun : ∀ a, Unmoved T n (run a) (run' a))
    (hother : ∀ best, Unmoved T n (otherwise best) (otherwise best))
    (hhalt : ∀ best : Failure, best.Grave → Halts T (otherwise (some best))) {as : List α}
    {best : Option Failure} :
    Unmoved T n (tryEach T run otherwise as best) (tryEach T run' otherwise as best) := by
  induction as generalizing best with
  | nil => exact hother best
  | cons a as ih =>
    refine (hrun a).attempt.recover (fun why => ih.unlessSpent) fun why t why' u hwhy h => ?_
    exact unlessSpent_halted
      (fun hgrave => tryEach_halts hhalt (Failure.grave_orElse hgrave best)) hwhy h

/-! ## Inclusions -/

variable {prove : Prover} {k k' : Proof → Search ρ} {emit emit' : Reduction → Search ρ}
  {lesser greater : Term}

/-- All goals that a reduction leaves are inclusions. -/
def Orders (r : Reduction) : Prop := ∀ g ∈ r.subgoals, ∃ a b, g = .subrel a b

theorem orders_argumentGoals {arguments : List (Term × Term × Variance)} {g : Goal}
    (hg : g ∈ argumentGoals arguments) : ∃ a b, g = .subrel a b := by
  fun_induction argumentGoals arguments <;> grind

theorem Structural.orders {σ : Subst} {pairs : List (Term × Term)} {goals : List Goal} {i j : Nat}
    (h : Structural T σ i lesser greater pairs goals j) : Orders { subgoals := goals } := by
  cases h with
  | named => exact fun g => orders_argumentGoals
  | _ => simp [Orders]

theorem eachInclusion_unmoved {run run' : Nat → Term → Term → Search ρ}
    (hrun : ∀ id l g, Unmoved T n (run id l g) (run' id l g)) :
    Unmoved T n (eachInclusion T goal run) (eachInclusion T goal run') := by
  refine tryEach_unmoved ?_ (fun best => .failBest .noRule) fun best hbest => .fail hbest
  rintro ⟨f, id⟩
  exact .bind (Q := fun _ => True) (fun _ => reserve_gets.mono fun _ _ _ _ => trivial)
    fun offset _ => hrun id _ _

/-- The rules for inclusions leave inclusions only, and do nothing else with what follows. -/
theorem ordering_unmoved {method : Method} (hmethod : method ∈ Method.ordering) {name : String}
    (hemit : ∀ r, Orders r → Unmoved T n (emit r) (emit' r)) :
    Unmoved T n (method.run T prove name (.subrel lesser greater) emit)
      (method.run T prove name (.subrel lesser greater) emit') := by
  have hnone : ∀ ps, Orders { premises := ps } := by simp [Orders]
  simp only [Method.ordering, List.mem_cons, List.not_mem_nil, or_false] at hmethod
  rcases hmethod with rfl | rfl | rfl | rfl | rfl | rfl
  · exact .bind (fun _ => subrelRefl_gets.mono fun r _ _ h => h.1 ▸ hnone []) hemit
  · exact .bind (fun _ => subrelExtremes_gets.mono fun r _ _ h => h.1 ▸ hnone []) hemit
  · simp only [Method.run, subrelFact]
    exact eachInclusion_unmoved fun id l g => .unify (.unify (hemit _ (hnone _)) .noRule) .noRule
  · refine .bind (fun _ => subrelStructural_gets.mono fun r _ _ h => ?_) hemit
    obtain ⟨pairs, goals, m, rfl, hgoals, -, -⟩ := h
    exact hgoals.orders
  · simp only [Method.run, subrelTrans]
    exact eachInclusion_unmoved fun id l g => .unify (hemit _ (by simp [Orders])) .noRule
  · exact .bind (fun _ => deferUnsolved_gets.mono fun r _ _ h => h.2.1 ▸ hnone _) hemit

/-! ## The search for an inclusion -/

/-- The prover goes on from the proofs of an inclusion in both ways alike. -/
def OrdersUnmoved (T : Theory) (n : Nat) (prove : Prover) : Prop :=
  ∀ ⦃ρ : Type⦄ ⦃lesser greater : Term⦄ ⦃k k' : Proof → Search ρ⦄, (∀ p, Unmoved T n (k p) (k' p)) →
    Unmoved T n (prove ρ (.subrel lesser greater) k) (prove ρ (.subrel lesser greater) k')

theorem OrdersUnmoved.proveAll (hprove : OrdersUnmoved T n prove) {k k' : List Proof → Search ρ}
    (hk : ∀ ps, Unmoved T n (k ps) (k' ps)) {goals : List Goal} {done : List Proof}
    (hgoals : ∀ g ∈ goals, ∃ a b, g = .subrel a b) :
    Unmoved T n (proveAll prove k goals done) (proveAll prove k' goals done) := by
  induction goals generalizing done with
  | nil => exact hk done
  | cons g goals ih =>
    rw [List.forall_mem_cons] at hgoals
    obtain ⟨⟨a, b, rfl⟩, hgoals⟩ := hgoals
    exact hprove fun p => ih hgoals

theorem tryRules_unmoved (hprove : OrdersUnmoved T n prove) (hk : ∀ p, Unmoved T n (k p) (k' p))
    {rules : List Rule} (hrules : ∀ rule ∈ rules, ∀ σ : Subst,
      rule.pattern.fits σ (.subrel lesser greater) = true → rule.method ∈ Method.ordering)
    {best : Option Failure} :
    Unmoved T n (tryRules T prove (.subrel lesser greater) k rules best)
      (tryRules T prove (.subrel lesser greater) k' rules best) := by
  induction rules generalizing best with
  | nil => exact .failBest .noRule
  | cons rule rules ih =>
    rw [List.forall_mem_cons] at hrules
    refine .subst fun σ => ?_
    split
    · next hfits =>
      refine .ledger fun l => ?_
      split
      · exact .exhausted
      · have happlied : Unmoved T n (applyRule T prove (.subrel lesser greater) k rule)
            (applyRule T prove (.subrel lesser greater) k' rule) :=
          ordering_unmoved (hrules.1 σ hfits) fun r hr => hprove.proveAll (fun ps => hk _) hr
        refine .count (fun i => by simp [Stats.le_def]) (happlied.attempt.recover (fun why => ?_) ?_)
        · exact .count (fun i => by simp [Stats.le_def]) (ih hrules.2).unlessSpent
        · intro why t why' u hwhy h
          exact unlessSpent_halted (s := t.counted fun i => { i with backtracks := i.backtracks + 1 })
            (fun hgrave => tryRules_halts (Failure.grave_orElse hgrave best)) hwhy h
    · exact ih hrules.2

theorem solve_unmoved (hT : T.Library) (room : Nat) : OrdersUnmoved T n (solve T room) := by
  induction room with
  | zero => exact fun _ _ _ _ _ _ => .exhausted
  | succ room ih =>
    intro ρ lesser greater k k' hk
    refine .ledger fun l => ?_
    split
    · exact .exhausted
    · refine .subst fun σ => .bind (Q := fun _ => True) (fun s => ⟨.refl s, trivial⟩) fun gs _ => ?_
      split
      · exact .fail
      · have hgoal : (Goal.subrel lesser greater).resolve σ =
            .subrel (σ.resolve lesser) (σ.resolve greater) := rfl
        rw [hgoal]
        exact (tryRules_unmoved ih (fun p => (hk p).outside)
          fun rule hrule τ hfits => hT.mem_ordering hrule hfits).inside

/-! ## The bridge -/

/-- What the proofs of an inclusion that is to bridge an edge are handed to. -/
def crossing (n : Nat) (k : Proof → Search ρ) (p : Proof) : Search ρ := do
  enterLedger fun l => { l with crossed := l.crossed.insert n }
  k p

/-- If all that lies behind a bridge fails for grave causes, then it crosses the bridge and halts. -/
theorem crossing_unmoved {S : ρ → State → Prop} (hyields : ∀ p s, (k p).Yields s S)
    (hgrave : ∀ p s why t, (k p).run s = .failure why t → why.Grave) (p : Proof) :
    Unmoved T n (crossing n k p) (crossing n k' p) := by
  have hcross : ∀ s why t, n < s.ledger.bridges → (crossing n k p).run s = .failure why t →
      n < t.ledger.bridges ∧ n ∈ t.ledger.crossed ∧ why.Grave := by
    intro s why t hs hrun
    have hgrown := (hyields p { s with ledger :=
      { s.ledger with crossed := s.ledger.crossed.insert n } }).of_failure hrun
    have hretains := hgrown.retains (n := n) hs
    exact ⟨hretains.begun, hretains.crossed List.mem_insert_self, hgrave p _ why t hrun⟩
  refine ⟨fun s why t hs hrun => ?_, fun s why t hs hrun hnot => ?_⟩
  · obtain ⟨hbegun, hcrossed, -⟩ := hcross s why t hs hrun
    exact ⟨hbegun, fun _ => hcrossed⟩
  · obtain ⟨-, hcrossed, hwhy⟩ := hcross s why t hs hrun
    exact (hnot ⟨hcrossed, .inl hwhy⟩).elim

end Search

/-- The state with a bridge begun. -/
def State.begin (s : State) : State :=
  { s with ledger := { s.ledger with bridges := s.ledger.bridges + 1 } }

namespace Search

variable {ρ : Type} {T : Theory} {search search' : (Proof → Search ρ) → Search ρ}
  {k k' : Proof → Search ρ} {onFailure : Bool → Failure → Search ρ} {s t : State} {why : Failure}

/-- What is done after the search for an inclusion that was to bridge an edge failed. -/
def closing (n : Nat) (onFailure : Bool → Failure → Search ρ) (why : Failure) : Search ρ := do
  let crossed := (← ledger).crossed.contains n
  enterLedger fun l => { l with crossed := l.crossed.erase n }
  onFailure crossed why

theorem bridging_run : (bridging search k onFailure).run s =
    (recover (search (crossing s.ledger.bridges k)) (closing s.ledger.bridges onFailure)).run
      s.begin := rfl

theorem bridging_congr (h : (search' (crossing s.ledger.bridges k')).run s.begin =
      (search (crossing s.ledger.bridges k)).run s.begin) :
    (bridging search' k' onFailure).run s = (bridging search k onFailure).run s := by
  rw [bridging_run, bridging_run, run_recover, run_recover, h]

end Search

end Monotonicity
