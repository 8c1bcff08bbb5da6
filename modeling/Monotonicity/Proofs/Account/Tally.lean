import Monotonicity.Proofs.Search.Ends

/-!
# Keeping a tally of rule applications

A search counts the rules that it applies and those of them that it takes back. Applications stay
open while the rest of the search runs in their continuation, so at any time those not taken back
are the open ones. A tally reads them off the trace: it puts down the depth of an application when
the steps go up, and strikes the latest one out when the backtracks go up at its depth.

The levels of a proof are what the tally of the search for it should be: the depths of its steps,
each before those of its premises, with a place for every step once.

A tally balances with a state if as many applications are open in it as were made and not taken
back, and the state keeps within the limits.
-/

namespace Monotonicity

/-! ## The steps of a proof -/

namespace Proof

mutual
/-- The depths of the steps of a proof whose root is at depth `d`, each before those of its
premises. -/
def levels (d : Nat) : Proof → List Nat
  | .step _ ps => d :: levelsAll (d + 1) ps
  | _ => []

/-- The depths of the steps of several proofs. -/
def levelsAll (d : Nat) : List Proof → List Nat
  | [] => []
  | p :: ps => p.levels d ++ levelsAll d ps
end

mutual
/-- The number of steps. -/
def steps : Proof → Nat
  | .step _ ps => 1 + stepsAll ps
  | _ => 0

/-- The steps of several proofs. -/
def stepsAll : List Proof → Nat
  | [] => 0
  | p :: ps => p.steps + stepsAll ps
end

mutual
theorem length_levels (d : Nat) : (p : Proof) → (p.levels d).length = p.steps
  | .step _ ps => by
    rw [levels, steps, List.length_cons, length_levelsAll (d + 1) ps, Nat.add_comm]
  | .fact _ _ => rfl
  | .inclusion _ => rfl
  | .hypothesis _ => rfl
  | .deferred _ => rfl

theorem length_levelsAll (d : Nat) : (ps : List Proof) → (levelsAll d ps).length = stepsAll ps
  | [] => rfl
  | p :: ps => by
    rw [levelsAll, stepsAll, List.length_append, length_levels d p, length_levelsAll d ps]
end

@[simp] theorem levelsAll_nil (d : Nat) : levelsAll d [] = [] := rfl

@[simp] theorem levelsAll_append (d : Nat) (ps qs : List Proof) :
    levelsAll d (ps ++ qs) = levelsAll d ps ++ levelsAll d qs := by
  induction ps with
  | nil => rfl
  | cons p ps ih => simp only [List.cons_append, levelsAll, ih, List.append_assoc]

@[simp] theorem levelsAll_singleton (d : Nat) (p : Proof) : levelsAll d [p] = p.levels d := by
  simp [levelsAll]

theorem append_levelsAll_snoc (o : List Nat) (d : Nat) (ps : List Proof) (p : Proof) :
    o ++ levelsAll d (ps ++ [p]) = o ++ levelsAll d ps ++ p.levels d := by
  rw [levelsAll_append, levelsAll_singleton, List.append_assoc]

end Proof

/-! ## Tallies -/

/-- The state that is come to, or in which placeholders are set aside. -/
def Event.now : Event → State
  | .state s => s
  | .reserve s _ => s

/-- What has been seen of the counts, and the depths of the applications that are open. -/
structure Tally where
  stats : Stats := {}
  opened : List Nat := []

namespace Tally

variable {n : Tally} {e : Event}

/-- An application is put down when it is made, and struck out when it is taken back. -/
def see (n : Tally) (e : Event) : Tally where
  stats := e.now.ledger.stats
  opened :=
    if n.stats.steps < e.now.ledger.stats.steps then n.opened ++ [e.now.depth]
    else if n.stats.backtracks < e.now.ledger.stats.backtracks ∧
        n.opened.getLast? = some e.now.depth then n.opened.dropLast
    else n.opened

/-- The tally after some events. -/
def along (n : Tally) (events : List Event) : Tally := events.foldl see n

@[simp] theorem along_nil (n : Tally) : n.along [] = n := rfl

@[simp] theorem along_cons (n : Tally) (e : Event) (events : List Event) :
    n.along (e :: events) = (n.see e).along events := rfl

@[simp] theorem along_append (n : Tally) (events events' : List Event) :
    n.along (events ++ events') = (n.along events).along events' :=
  List.foldl_append

theorem opened_see_same (hsteps : e.now.ledger.stats.steps = n.stats.steps)
    (hbacktracks : e.now.ledger.stats.backtracks = n.stats.backtracks) :
    (n.see e).opened = n.opened := by
  simp [see, hsteps, hbacktracks]

theorem opened_see_step (hsteps : n.stats.steps < e.now.ledger.stats.steps) :
    (n.see e).opened = n.opened ++ [e.now.depth] := by
  simp [see, hsteps]

theorem opened_see_backtrack {opened : List Nat}
    (hsteps : e.now.ledger.stats.steps = n.stats.steps)
    (hbacktracks : n.stats.backtracks < e.now.ledger.stats.backtracks)
    (hopened : n.opened = opened ++ [e.now.depth]) : (n.see e).opened = opened := by
  simp [see, hsteps, hbacktracks, hopened]

end Tally

/-! ## Limits -/

variable {T : Theory} {d : Nat} {n : Tally} {s t : State}

/-- The state keeps within the limits: no more steps than there is fuel for, none taken back that
was not made, no more goals in progress than allowed, now or ever, and no more obligations than were
put off. -/
structure State.InBounds (T : Theory) (s : State) : Prop where
  steps : s.ledger.stats.steps ≤ T.limits.fuel
  backtracks : s.ledger.stats.backtracks ≤ s.ledger.stats.steps
  maxDepth : s.ledger.stats.maxDepth ≤ T.limits.maxDepth
  depth : s.depth ≤ T.limits.maxDepth
  deferrals : s.delayed.length ≤ s.ledger.stats.deferrals

/-- At depth `d` the tally is up to date, and it accounts for all steps not taken back. -/
structure Tally.Balances (T : Theory) (d : Nat) (n : Tally) (s : State) : Prop where
  stats : n.stats = s.ledger.stats
  balance : s.ledger.stats.steps = s.ledger.stats.backtracks + n.opened.length
  bounds : s.InBounds T
  depth : s.depth = d

/-- What comes about without an application: at another depth perhaps, with as many steps and
backtracks, and with no more obligations than were put off. -/
structure State.Aside (T : Theory) (d : Nat) (s t : State) : Prop where
  steps : t.ledger.stats.steps = s.ledger.stats.steps
  backtracks : t.ledger.stats.backtracks = s.ledger.stats.backtracks
  maxDepth : t.ledger.stats.maxDepth ≤ T.limits.maxDepth
  depth : t.depth = d
  le : d ≤ T.limits.maxDepth
  deferrals : t.delayed.length ≤ t.ledger.stats.deferrals

namespace Tally.Balances

theorem le (hs : n.Balances T d s) : d ≤ T.limits.maxDepth := hs.depth ▸ hs.bounds.depth

/-- Where no rule is applied or taken back, the same applications are open. -/
theorem aside {d' : Nat} (hs : n.Balances T d s) (ht : s.Aside T d' t) :
    (n.see (.state t)).Balances T d' t ∧ (n.see (.state t)).opened = n.opened := by
  have hopened : (n.see (.state t)).opened = n.opened := by
    apply opened_see_same
    · rw [hs.stats]
      exact ht.steps
    · rw [hs.stats]
      exact ht.backtracks
  have hsteps := hs.bounds.steps
  have hbacktracks := hs.bounds.backtracks
  have hbalance := hs.balance
  rw [← ht.steps] at hsteps
  rw [← ht.steps, ← ht.backtracks] at hbacktracks hbalance
  rw [← hopened] at hbalance
  have hdepth := ht.le
  rw [← ht.depth] at hdepth
  exact ⟨⟨rfl, hbalance, ⟨hsteps, hbacktracks, ht.maxDepth, hdepth, ht.deferrals⟩, ht.depth⟩,
    hopened⟩

/-- Where the counts stay as they are, too. -/
theorem idle (hs : n.Balances T d s) (hstats : t.ledger.stats = s.ledger.stats)
    (hdepth : t.depth = s.depth) (hdelayed : t.delayed.length ≤ s.delayed.length) :
    (n.see (.state t)).Balances T d t ∧ (n.see (.state t)).opened = n.opened := by
  refine hs.aside ⟨?_, ?_, ?_, hdepth.trans hs.depth, hs.le, ?_⟩
  all_goals rw [hstats]
  · exact hs.bounds.maxDepth
  · exact hdelayed.trans hs.bounds.deferrals

/-- An application that is made is open from then on. -/
theorem step (hs : n.Balances T d s) (hfuel : s.ledger.stats.steps < T.limits.fuel)
    {l : Ledger} (hl : l.stats = { s.ledger.stats with steps := s.ledger.stats.steps + 1 }) :
    (n.see (.state { s with ledger := l })).Balances T d { s with ledger := l } ∧
      (n.see (.state { s with ledger := l })).opened = n.opened ++ [d] := by
  have hopened : (n.see (.state { s with ledger := l })).opened = n.opened ++ [d] := by
    have hgrew : n.stats.steps < l.stats.steps := by
      rw [hs.stats, hl]
      exact Nat.lt_succ_self _
    rw [opened_see_step hgrew, ← hs.depth]
    rfl
  obtain ⟨-, hbalance, hbounds, hdepth⟩ := hs
  refine ⟨⟨rfl, ?_, ⟨?_, ?_, ?_, hbounds.depth, ?_⟩, hdepth⟩, hopened⟩
  · simp only [hl, hopened, List.length_append, List.length_singleton]
    omega
  all_goals simp only [hl]
  · omega
  · have := hbounds.backtracks
    omega
  · exact hbounds.maxDepth
  · exact hbounds.deferrals

/-- The latest application is taken back. -/
theorem backtrack {opened : List Nat} (hs : n.Balances T d s) (hn : n.opened = opened ++ [d])
    {l : Ledger}
    (hl : l.stats = { s.ledger.stats with backtracks := s.ledger.stats.backtracks + 1 }) :
    (n.see (.state { s with ledger := l })).Balances T d { s with ledger := l } ∧
      (n.see (.state { s with ledger := l })).opened = opened := by
  have hopened : (n.see (.state { s with ledger := l })).opened = opened := by
    have hsame : l.stats.steps = n.stats.steps := by rw [hs.stats, hl]
    have hgrew : n.stats.backtracks < l.stats.backtracks := by
      rw [hs.stats, hl]
      exact Nat.lt_succ_self _
    refine opened_see_backtrack hsame hgrew ?_
    rw [hn, ← hs.depth]
    rfl
  obtain ⟨-, hbalance, hbounds, hdepth⟩ := hs
  rw [hn, List.length_append, List.length_singleton] at hbalance
  refine ⟨⟨rfl, ?_, ⟨?_, ?_, ?_, hbounds.depth, ?_⟩, hdepth⟩, hopened⟩
  all_goals simp only [hl, hopened]
  · omega
  · exact hbounds.steps
  · omega
  · exact hbounds.maxDepth
  · exact hbounds.deferrals

/-- The depth is that of the state. -/
theorem here (hs : n.Balances T d s) : n.Balances T s.depth s := { hs with depth := rfl }

end Tally.Balances

/-! ## Along a trace -/

namespace Tally

/-- The tally is balanced after each of the events. -/
def BalancesAlong (T : Theory) : Tally → List Event → Prop
  | _, [] => True
  | n, e :: events => (n.see e).Balances T e.now.depth e.now ∧ BalancesAlong T (n.see e) events

theorem balancesAlong_append {events events' : List Event} :
    n.BalancesAlong T (events ++ events') ↔
      n.BalancesAlong T events ∧ (n.along events).BalancesAlong T events' := by
  induction events generalizing n with
  | nil => simp [BalancesAlong]
  | cons e events ih => simp only [List.cons_append, BalancesAlong, along_cons, ih, and_assoc]

theorem balancesAlong_singleton (h : (n.see (.state s)).Balances T d s) :
    n.BalancesAlong T [.state s] :=
  ⟨h.here, trivial⟩

/-- At any moment of a run as many applications are open as were made and not taken back, and the
state keeps within the limits. -/
theorem BalancesAlong.balances {before after : List Event} {e : Event}
    (h : n.BalancesAlong T (before ++ e :: after)) :
    (n.along (before ++ [e])).Balances T e.now.depth e.now := by
  rw [along_append]
  exact (balancesAlong_append.1 h).2.1

end Tally

end Monotonicity
