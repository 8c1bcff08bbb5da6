import Monotonicity.Proofs.Account.Tally

/-!
# Searches that keep accounts

A search settles its accounts if, whenever it fails, the applications are open that were open when
it began. On the way the tally is balanced after every event. Of a search that succeeds it is said
which applications are open then.

What a search does to the accounts depends on the depth at which it begins and on nothing else of
its state. So this is said of the search alone, with a rule for each way of making searches. It is
said of two searches at once, where the second ends as the first does: this allows for a solver that
is written differently but comes to the same at the depths that it is asked for.
-/

namespace Monotonicity

variable {α β ρ : Type} {T : Theory} {o : List Nat} {d : Nat} {goal : Goal}

namespace Search

/-! ## From a state -/

section Counts

variable {m m' : Search α} {n : Tally} {s t : State} {F G : Tally → State → Prop}
  {P Q : α → Tally → State → Prop} {R : β → Tally → State → Prop}

/-- From `s`, with the tally `n`, the search `m` keeps the tally balanced; a failure leaves a tally
and a state with `F`, and a success with `Q`. The search `m'` ends as `m` does. -/
structure Counts (T : Theory) (m m' : Search α) (n : Tally) (s : State) (F : Tally → State → Prop)
    (Q : α → Tally → State → Prop) : Prop where
  agrees : m'.run s = m.run s
  events : n.BalancesAlong T (m.trace s)
  ends : m.Ends s (F (n.along (m.trace s))) fun a => Q a (n.along (m.trace s))

namespace Counts

/-- A search goes on as another one does from a later state. -/
theorem after {r r' : Search α} {h : List Event} (hr : Counts T r r' (n.along h) t F Q)
    (hrun : m.run s = r.run t) (hrun' : m'.run s = r'.run t) (htrace : m.trace s = h ++ r.trace t)
    (hevents : n.BalancesAlong T h) : Counts T m m' n s F Q where
  agrees := by rw [hrun', hr.agrees, hrun]
  events := by
    rw [htrace]
    exact Tally.balancesAlong_append.2 ⟨hevents, hr.events⟩
  ends := by
    simp only [htrace, Tally.along_append]
    simpa only [Ends, hrun] using hr.ends

/-- A search that is over. -/
theorem done {m' : Search α} {h : List Event} (hrun' : m'.run s = m.run s)
    (htrace : m.trace s = h) (hevents : n.BalancesAlong T h)
    (hends : m.Ends s (F (n.along h)) fun a => Q a (n.along h)) : Counts T m m' n s F Q where
  agrees := hrun'
  events := htrace ▸ hevents
  ends := by rwa [htrace]

theorem mono (hm : Counts T m m' n s F P) (hF : ∀ n t, F n t → G n t)
    (hP : ∀ a n t, P a n t → Q a n t) : Counts T m m' n s G Q :=
  ⟨hm.agrees, hm.events, hm.ends.mono (hF _) fun a => hP a _⟩

theorem bind {f f' : α → Search β} (hm : Counts T m m' n s F P)
    (hf : ∀ a n t, P a n t → Counts T (f a) (f' a) n t F R) :
    Counts T (m >>= f) (m' >>= f') n s F R := by
  have hbind := run_bind m' f' s
  rw [hm.agrees] at hbind
  cases hrun : m.run s with
  | success a t =>
    rw [hrun] at hbind
    refine (hf a _ t (hm.ends.of_success hrun)).after ?_ hbind ?_ hm.events
    · rw [run_bind, hrun]
    · rw [trace_bind, hrun]
  | failure why t =>
    rw [hrun] at hbind
    have hstop : (m >>= f).run s = .failure why t := by rw [run_bind, hrun]
    refine done (hbind.trans hstop.symm) (by simp [trace_bind, hrun]) hm.events ?_
    simpa only [Ends, hstop] using hm.ends.of_failure hrun
  | overflow l =>
    rw [hrun] at hbind
    have hstop : (m >>= f).run s = .overflow l := by rw [run_bind, hrun]
    refine done (hbind.trans hstop.symm) (by simp [trace_bind, hrun]) hm.events ?_
    simp only [Ends, hstop]

theorem recover {handler handler' : Failure → Search α} (hm : Counts T m m' n s G Q)
    (hhandler : ∀ why n t, G n t → Counts T (handler why) (handler' why) n t F Q) :
    Counts T (m.recover handler) (m'.recover handler') n s F Q := by
  have hrecover := run_recover m' handler' s
  rw [hm.agrees] at hrecover
  cases hrun : m.run s with
  | failure why t =>
    rw [hrun] at hrecover
    refine (hhandler why _ t (hm.ends.of_failure hrun)).after ?_ hrecover ?_ hm.events
    · rw [run_recover, hrun]
    · rw [trace_recover, hrun]
  | success a t =>
    rw [hrun] at hrecover
    have hstop : (m.recover handler).run s = .success a t := by rw [run_recover, hrun]
    refine done (hrecover.trans hstop.symm) (by simp [trace_recover, hrun]) hm.events ?_
    simpa only [Ends, hstop] using hm.ends.of_success hrun
  | overflow l =>
    rw [hrun] at hrecover
    have hstop : (m.recover handler).run s = .overflow l := by rw [run_recover, hrun]
    refine done (hrecover.trans hstop.symm) (by simp [trace_recover, hrun]) hm.events ?_
    simp only [Ends, hstop]

/-- What is taken back after a failure is seen by the tally. -/
theorem attempt (hm : Counts T m m' n s G Q)
    (hundo : ∀ n t, G n t → (n.see (.state (t.undo s.mark))).Balances T d (t.undo s.mark) ∧
      F (n.see (.state (t.undo s.mark))) (t.undo s.mark)) :
    Counts T (attempt m) (Search.attempt m') n s F Q := by
  have hagrees : (Search.attempt m').run s = (Search.attempt m).run s := by
    simp only [Search.attempt, hm.agrees]
  cases hrun : m.run s with
  | success a t =>
    refine done hagrees (by simp [Search.attempt, hrun]) hm.events ?_
    simpa only [Ends, Search.attempt, hrun] using hm.ends.of_success hrun
  | failure why t =>
    obtain ⟨hundone, hF⟩ := hundo _ t (hm.ends.of_failure hrun)
    refine done hagrees (h := m.trace s ++ [.state (t.undo s.mark)])
      (by simp [Search.attempt, hrun]) ?_ ?_
    · exact Tally.balancesAlong_append.2 ⟨hm.events, Tally.balancesAlong_singleton hundone⟩
    · rw [Tally.along_append]
      simpa only [Ends, Search.attempt, hrun, Tally.along_cons, Tally.along_nil] using hF
  | overflow l =>
    refine done hagrees (by simp [Search.attempt, hrun]) hm.events ?_
    simp only [Ends, Search.attempt, hrun]

/-- The states before and after the search that is run in between are seen by the tally. -/
theorem within {d' : Nat} {before after : State → State}
    (hm : Counts T m m' (n.see (.state (before s))) (before s) G P)
    (hbefore : (n.see (.state (before s))).Balances T d' (before s))
    (hfail : ∀ n t, G n t → (n.see (.state (after t))).Balances T d (after t) ∧
      F (n.see (.state (after t))) (after t))
    (hok : ∀ a n t, P a n t → (n.see (.state (after t))).Balances T d (after t) ∧
      Q a (n.see (.state (after t))) (after t)) :
    Counts T (within before after m) (Search.within before after m') n s F Q := by
  have hagrees : (Search.within before after m').run s = (Search.within before after m).run s := by
    simp only [Search.within, hm.agrees]
  have hfirst : n.BalancesAlong T (.state (before s) :: m.trace (before s)) :=
    ⟨hbefore.here, hm.events⟩
  cases hrun : m.run (before s) with
  | success a t =>
    obtain ⟨hafter, hQ⟩ := hok a _ t (hm.ends.of_success hrun)
    refine done hagrees (h := .state (before s) :: m.trace (before s) ++ [.state (after t)])
      (by simp [Search.within, hrun, Outcome.mapState, Outcome.events]) ?_ ?_
    · exact Tally.balancesAlong_append.2 ⟨hfirst, Tally.balancesAlong_singleton hafter⟩
    · rw [Tally.along_append]
      simpa only [Ends, Search.within, hrun, Outcome.mapState, Tally.along_cons, Tally.along_nil]
        using hQ
  | failure why t =>
    obtain ⟨hafter, hF⟩ := hfail _ t (hm.ends.of_failure hrun)
    refine done hagrees (h := .state (before s) :: m.trace (before s) ++ [.state (after t)])
      (by simp [Search.within, hrun, Outcome.mapState, Outcome.events]) ?_ ?_
    · exact Tally.balancesAlong_append.2 ⟨hfirst, Tally.balancesAlong_singleton hafter⟩
    · rw [Tally.along_append]
      simpa only [Ends, Search.within, hrun, Outcome.mapState, Tally.along_cons, Tally.along_nil]
        using hF
  | overflow l =>
    refine done hagrees (h := .state (before s) :: m.trace (before s))
      (by simp [Search.within, hrun, Outcome.mapState, Outcome.events]) hfirst ?_
    simp only [Ends, Search.within, hrun, Outcome.mapState]

theorem ledger {k k' : Ledger → Search β} (hk : Counts T (k s.ledger) (k' s.ledger) n s F R) :
    Counts T (ledger >>= k) (Search.ledger >>= k') n s F R :=
  ⟨hk.agrees, hk.events, hk.ends⟩

end Counts

end Counts

/-! ## At a depth -/

variable {m m' : Search α} {f f' : α → Search β} {P Q : α → Prop} {R : β → Prop}
  {S : α → List Nat → State → Prop} {V : β → List Nat → State → Prop}

/-- Begun at depth `d` while the applications `o` are open, the search keeps every tally balanced.
If it fails, then at that depth with the same applications open, and if it succeeds, then as `S`
says of its value, of the applications open then, and of the state without its scope. The second
search ends as the first does. -/
def Settles (T : Theory) (o : List Nat) (d : Nat) (m m' : Search α)
    (S : α → List Nat → State → Prop) : Prop :=
  ∀ n s, n.Balances T d s → n.opened = o →
    Counts T m m' n s (fun n t => n.Balances T d t ∧ n.opened = o)
      fun a n t => n.Balances T d t ∧ S a n.opened t.bare

/-- The search applies no rules, at whatever depth, and gives values with `Q`. -/
def Quiet (T : Theory) (m : Search α) (Q : α → Prop := fun _ => True) : Prop :=
  ∀ o d, Settles T o d m m fun a o' _ => o' = o ∧ Q a

namespace Settles

/-- Another search that ends as the second one does at this depth may stand for it. -/
theorem congr {r : Search α} (hm : Settles T o d m m' S)
    (hr : ∀ s : State, s.depth = d → r.run s = m'.run s) : Settles T o d m r S := by
  intro n s hs ho
  have hcounts := hm n s hs ho
  exact { hcounts with agrees := (hr s hs.depth).trans hcounts.agrees }

theorem bind (hm : Quiet T m Q) (hf : ∀ a, Q a → Settles T o d (f a) (f' a) V) :
    Settles T o d (m >>= f) (m >>= f') V := by
  intro n s hs ho
  exact (hm o d n s hs ho).bind fun a n t ⟨ht, ho, ha⟩ => hf a ha n t ht ho

theorem recover {handler handler' : Failure → Search α} (hm : Settles T o d m m' S)
    (hhandler : ∀ why, Settles T o d (handler why) (handler' why) S) :
    Settles T o d (m.recover handler) (m'.recover handler') S := by
  intro n s hs ho
  exact (hm n s hs ho).recover fun why n t ⟨ht, ho⟩ => hhandler why n t ht ho

theorem attempt (hm : Settles T o d m m' S) :
    Settles T o d (attempt m) (Search.attempt m') S := by
  intro n s hs ho
  refine (hm n s hs ho).attempt (d := d) fun n t ⟨ht, ho⟩ => ?_
  have hdelayed : (t.undo s.mark).delayed.length ≤ t.delayed.length := List.length_take_le' _ _
  obtain ⟨hundone, hopened⟩ := ht.idle (t := t.undo s.mark) rfl rfl hdelayed
  exact ⟨hundone, hundone, hopened.trans ho⟩

/-- A search in another scope, perhaps at another depth. -/
theorem within {d' : Nat} {before after : State → State} (hm : Settles T o d' m m' S)
    (hbefore : ∀ s : State, s.depth = d → s.InBounds T → s.Aside T d' (before s))
    (hafter : ∀ s : State, s.depth = d' → s.InBounds T → s.Aside T d (after s))
    (hbare : ∀ s, (after s).bare = s.bare) :
    Settles T o d (within before after m) (Search.within before after m') S := by
  intro n s hs ho
  obtain ⟨hin, hopened⟩ := hs.aside (hbefore s hs.depth hs.bounds)
  refine (hm _ _ hin (hopened.trans ho)).within (d := d) hin ?_ ?_
  · intro n t ⟨ht, ho⟩
    obtain ⟨hout, hopened⟩ := ht.aside (hafter t ht.depth ht.bounds)
    exact ⟨hout, hout, hopened.trans ho⟩
  · intro a n t ⟨ht, hS⟩
    obtain ⟨hout, hopened⟩ := ht.aside (hafter t ht.depth ht.bounds)
    refine ⟨hout, hout, ?_⟩
    rw [hopened, hbare]
    exact hS

/-- A search that looks at the state first. -/
theorem state {k k' : State → Search β}
    (hk : ∀ s : State, s.depth = d → Settles T o d (k s) (k' s) V) :
    Settles T o d (state >>= k) (Search.state >>= k') V := by
  intro n s hs ho
  obtain ⟨hagrees, hevents, hends⟩ := hk s hs.depth n s hs ho
  exact ⟨hagrees, hevents, hends⟩

theorem depth {k k' : Nat → Search β} (hk : Settles T o d (k d) (k' d) V) :
    Settles T o d (depth >>= k) (Search.depth >>= k') V :=
  state (k := fun s => k s.depth) fun s hs => by rwa [hs]

theorem ite {p : Prop} [Decidable p] {r r' : Search α} (hm : p → Settles T o d m m' S)
    (hr : ¬ p → Settles T o d r r' S) :
    Settles T o d (if p then m else r) (if p then m' else r') S := by
  by_cases h : p
  · simpa only [if_pos h] using hm h
  · simpa only [if_neg h] using hr h

end Settles

/-! ## Searches that apply no rules -/

namespace Quiet

theorem bind (hm : Quiet T m P) (hf : ∀ a, P a → Quiet T (f a) R) : Quiet T (m >>= f) R :=
  fun o d => .bind hm fun a ha => hf a ha o d

/-- A search that leaves the state alone. -/
theorem still (htrace : ∀ s, m.trace s = [])
    (hrun : ∀ s, (∃ a, m.run s = .success a s ∧ Q a) ∨ ∃ why, m.run s = .failure why s) :
    Quiet T m Q := by
  intro o d n s hs ho
  refine .done rfl (htrace s) trivial ?_
  rcases hrun s with ⟨a, ha, hQ⟩ | ⟨why, hwhy⟩
  · simpa only [Ends, ha] using ⟨hs, ho, hQ⟩
  · simpa only [Ends, hwhy] using ⟨hs, ho⟩

theorem pure {a : α} (ha : Q a) : Quiet T (pure a) Q :=
  still (fun _ => rfl) fun _ => .inl ⟨a, rfl, ha⟩

theorem fail (why : Failure) : Quiet T (fail why : Search α) Q :=
  still (fun _ => rfl) fun _ => .inr ⟨why, rfl⟩

theorem noRule (goal : Goal) : Quiet T (noRule goal : Search α) Q :=
  still (fun _ => rfl) fun _ => .inr ⟨_, rfl⟩

theorem noCandidate (goal : Goal) : Quiet T (noCandidate goal : Search α) Q :=
  still (fun _ => rfl) fun _ => .inr ⟨_, rfl⟩

theorem gap (goal : Goal) : Quiet T (gap goal : Search α) Q :=
  still (fun _ => rfl) fun _ => .inr ⟨_, rfl⟩

theorem exhausted : Quiet T (exhausted : Search α) Q :=
  still (fun _ => rfl) fun _ => .inr ⟨_, rfl⟩

theorem subst : Quiet T subst := still (fun _ => rfl) fun s => .inl ⟨s.subst, rfl, trivial⟩

theorem hyps : Quiet T hyps := still (fun _ => rfl) fun s => .inl ⟨s.hyps, rfl, trivial⟩

theorem active : Quiet T active := still (fun _ => rfl) fun s => .inl ⟨s.active, rfl, trivial⟩

theorem ledger : Quiet T ledger := still (fun _ => rfl) fun s => .inl ⟨s.ledger, rfl, trivial⟩

theorem require {value : Option α} {otherwise : Search α} (hvalue : ∀ a, value = some a → Q a)
    (hother : Quiet T otherwise Q) : Quiet T (require value otherwise) Q := by
  cases value with
  | none => exact hother
  | some a => exact pure (hvalue a rfl)

theorem ite {p : Prop} [Decidable p] {r : Search α} (hm : Quiet T m Q) (hr : Quiet T r Q) :
    Quiet T (if p then m else r) Q :=
  fun o d => .ite (fun _ => hm o d) fun _ => hr o d

/-- A search that changes the state once. -/
theorem once (htrace : ∀ s, m.trace s = (m.run s).events)
    (hrun : ∀ s : State, s.InBounds T →
      ∃ a t, m.run s = .success a t ∧ s.Aside T s.depth t ∧ Q a) : Quiet T m Q := by
  intro o d n s hs ho
  obtain ⟨a, t, hrun, haside, hQ⟩ := hrun s hs.bounds
  rw [hs.depth] at haside
  obtain ⟨ht, hopened⟩ := hs.aside haside
  refine .done (h := [.state t]) rfl (by rw [htrace, hrun]; rfl) ?_ ?_
  · exact Tally.balancesAlong_singleton ht
  · simpa only [Ends, hrun, Tally.along_cons, Tally.along_nil] using ⟨ht, hopened.trans ho, hQ⟩

/-- A change of the ledger that leaves the steps and the backtracks alone. -/
theorem enterLedger {change : Ledger → Ledger}
    (hsteps : ∀ l, (change l).stats.steps = l.stats.steps)
    (hbacktracks : ∀ l, (change l).stats.backtracks = l.stats.backtracks)
    (hmaxDepth : ∀ l, l.stats.maxDepth ≤ T.limits.maxDepth →
      (change l).stats.maxDepth ≤ T.limits.maxDepth)
    (hdeferrals : ∀ l, l.stats.deferrals ≤ (change l).stats.deferrals) :
    Quiet T (enterLedger change) := by
  refine once (fun _ => rfl) fun s hs => ⟨(), _, rfl, ?_, trivial⟩
  exact ⟨hsteps _, hbacktracks _, hmaxDepth _ hs.maxDepth, rfl, hs.depth,
    hs.deferrals.trans (hdeferrals _)⟩

/-- A change of the ledger that leaves the statistics alone. -/
theorem enterLedger_of_stats {change : Ledger → Ledger}
    (h : ∀ l, (change l).stats = l.stats) : Quiet T (Search.enterLedger change) := by
  refine enterLedger ?_ ?_ ?_ ?_
  all_goals
    intro l
    rw [h l]
  exact id

theorem assign (a b : Term) : Quiet T (assign a b) := by
  intro o d n s hs ho
  cases h : s.subst.unify a b with
  | none =>
    refine .done (h := []) rfl (by simp only [Search.assign, h]) trivial ?_
    simpa only [Ends, Search.assign, h] using ⟨hs, ho, trivial⟩
  | some τ =>
    obtain ⟨ht, hopened⟩ := hs.idle (t := { s with subst := τ }) rfl rfl (Nat.le_refl _)
    refine .done (h := [.state { s with subst := τ }]) rfl (by simp only [Search.assign, h]) ?_ ?_
    · exact Tally.balancesAlong_singleton ht
    · simpa only [Ends, Search.assign, h] using ⟨ht, hopened.trans ho, trivial⟩

theorem unify (a b : Term) : Quiet T (unify a b) :=
  bind (enterLedger (fun _ => rfl) (fun _ => rfl) (fun _ => id) fun _ => Nat.le_refl _)
    fun _ _ => assign a b

/-- A choice by whether two terms can be made equal. -/
theorem ifUnify {a b : Term} {r : Search α} (hm : Quiet T m Q) (hr : Quiet T r Q) :
    Quiet T (do if ← Search.unify a b then m else r) Q :=
  bind (unify a b) fun _ _ => ite hm hr

theorem reserve (count : Nat) : Quiet T (reserve count) := by
  intro o d n s hs ho
  by_cases h : s.ledger.nextVar + count < indexBound
  · let t : State := { s with ledger := { s.ledger with nextVar := s.ledger.nextVar + count } }
    obtain ⟨hkept, hopened⟩ := hs.idle (t := s) rfl rfl (Nat.le_refl _)
    obtain ⟨ht, hopened'⟩ := hkept.idle (t := t) rfl rfl (Nat.le_refl _)
    refine .done (h := [.reserve s count, .state t]) rfl (by simp [Search.reserve, h, t]) ?_ ?_
    · exact ⟨hkept.here, Tally.balancesAlong_singleton ht⟩
    · have hrun : (Search.reserve count).run s = .success s.ledger.nextVar t := by
        simp [Search.reserve, h, t]
      simpa only [Ends, hrun] using ⟨ht, (hopened'.trans hopened).trans ho, trivial⟩
  · refine .done (h := []) rfl (by simp [Search.reserve, h]) trivial ?_
    simp [Ends, Search.reserve, h]

theorem freshVar : Quiet T freshVar := bind (reserve 1) fun _ _ => pure trivial

theorem freshVars (count : Nat) : Quiet T (freshVars count) := by
  induction count with
  | zero => exact pure trivial
  | succ count ih => exact bind freshVar fun _ _ => bind ih fun _ _ => pure trivial

theorem freshConst (hint : String) : Quiet T (freshConst hint) :=
  bind ledger fun _ _ => bind (enterLedger_of_stats fun _ => rfl) fun _ _ => pure trivial

theorem freshConsts (hint : String) (count : Nat) : Quiet T (freshConsts hint count) := by
  induction count with
  | zero => exact pure trivial
  | succ count ih => exact bind (freshConst hint) fun _ _ => bind ih fun _ _ => pure trivial

/-- The obligation is counted before it is put off. -/
theorem defer (goal : Goal) : Quiet T (defer goal) fun p => ∀ d, p.levels d = [] := by
  intro o d n s hs ho
  let t : State := { s with ledger := { s.ledger with
    stats := { s.ledger.stats with deferrals := s.ledger.stats.deferrals + 1 } } }
  let u : State := { t with delayed := s.delayed ++ [⟨goal.resolve s.subst, s.hyps⟩] }
  have hcount : s.Aside T d t :=
    ⟨rfl, rfl, hs.bounds.maxDepth, hs.depth, hs.le, Nat.le_succ_of_le hs.bounds.deferrals⟩
  obtain ⟨ht, hopened⟩ := hs.aside hcount
  have hlength : u.delayed.length ≤ u.ledger.stats.deferrals := by
    have := hs.bounds.deferrals
    simp [u, t, this]
  obtain ⟨hu, hopened'⟩ := ht.aside (⟨rfl, rfl, hs.bounds.maxDepth, hs.depth, hs.le, hlength⟩ :
    t.Aside T d u)
  refine .done (h := [.state t, .state u]) rfl rfl ?_ ?_
  · exact ⟨ht.here, Tally.balancesAlong_singleton hu⟩
  · exact ⟨hu, (hopened'.trans hopened).trans ho, fun _ => rfl⟩

theorem failBest (best : Option Failure) (hm : Quiet T m Q) : Quiet T (failBest m best) Q := by
  cases best with
  | none => exact hm
  | some why => exact fail why

end Quiet

namespace Settles

/-- A search that applies no rules can only fail. -/
theorem of_quiet (hm : Quiet T m fun _ => False) : Settles T o d m m S := by
  intro n s hs ho
  exact (hm o d n s hs ho).mono (fun _ _ => id) fun _ _ _ h => h.2.2.elim

theorem ifUnify {a b : Term} {r r' : Search α} (hm : Settles T o d m m' S)
    (hr : Settles T o d r r' S) :
    Settles T o d (do if ← unify a b then m else r) (do if ← unify a b then m' else r') S :=
  .bind (.unify a b) fun _ _ => .ite (fun _ => hm) fun _ => hr

theorem unlessSpent {why : Failure} (hm : Settles T o d m m' S) :
    Settles T o d (unlessSpent T why m) (Search.unlessSpent T why m') S :=
  .bind .ledger fun _ _ => .ite (fun _ => of_quiet (.fail why)) fun _ => hm

theorem tryEach {run run' : α → Search ρ} {otherwise otherwise' : Option Failure → Search ρ}
    {alternatives : List α} {best : Option Failure} {S : ρ → List Nat → State → Prop}
    (hrun : ∀ a ∈ alternatives, Settles T o d (run a) (run' a) S)
    (hother : ∀ best, Settles T o d (otherwise best) (otherwise' best) S) :
    Settles T o d (tryEach T run otherwise alternatives best)
      (Search.tryEach T run' otherwise' alternatives best) S := by
  induction alternatives generalizing best with
  | nil => exact hother best
  | cons a alternatives ih =>
    rw [List.forall_mem_cons] at hrun
    exact hrun.1.attempt.recover fun why => (ih hrun.2).unlessSpent

/-! ## Scopes -/

theorem inside (hd : d < T.limits.maxDepth) (hm : Settles T o (d + 1) m m' S) :
    Settles T o d (inside goal m) (Search.inside goal m') S := by
  refine .depth (.bind (.enterLedger (fun _ => rfl) (fun _ => rfl) (fun l hl => ?_)
    fun _ => Nat.le_refl _) fun _ _ => ?_)
  · exact Nat.max_le.2 ⟨hl, hd⟩
  · refine hm.within (fun s hs hin => ?_) (fun s hs hin => ?_) fun _ => rfl
    · exact ⟨rfl, rfl, hin.maxDepth, congrArg (· + 1) hs, hd, hin.deferrals⟩
    · exact ⟨rfl, rfl, hin.maxDepth, congrArg (· - 1) hs, hd.le, hin.deferrals⟩

theorem outside (hd : d < T.limits.maxDepth) (hm : Settles T o d m m' S) :
    Settles T o (d + 1) (outside goal m) (Search.outside goal m') S := by
  refine hm.within (fun s hs hin => ?_) (fun s hs hin => ?_) fun _ => rfl
  · exact ⟨rfl, rfl, hin.maxDepth, congrArg (· - 1) hs, hd.le, hin.deferrals⟩
  · exact ⟨rfl, rfl, hin.maxDepth, congrArg (· + 1) hs, hd, hin.deferrals⟩

/-- A search under other hypotheses. -/
theorem underHyps {before after : State → List Hypothesis} (hm : Settles T o d m m' S) :
    Settles T o d (Search.within (fun s => { s with hyps := before s })
        (fun s => { s with hyps := after s }) m)
      (Search.within (fun s => { s with hyps := before s })
        (fun s => { s with hyps := after s }) m') S := by
  refine hm.within (fun s hs hin => ?_) (fun s hs hin => ?_) fun _ => rfl
  all_goals exact ⟨rfl, rfl, hin.maxDepth, hs, hs ▸ hin.depth, hin.deferrals⟩

theorem withdrawing {count : Nat} (hm : Settles T o d m m' S) :
    Settles T o d (withdrawing count m) (Search.withdrawing count m') S :=
  state (k := fun s => Search.within (·.withdraw count)
    (fun t => (t.withdraw count).assume (s.hyps.drop count)) m) fun _ _ => hm.underHyps

end Settles

end Search

end Monotonicity
