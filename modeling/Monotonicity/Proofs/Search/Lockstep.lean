import Monotonicity.Proofs.Search.Ends

/-!
# Searches in lockstep

One search follows another from a state if it ends as that one does. A success is compared without
its scope, as everywhere. The search that is followed may have fewer steps at its disposal: if it
fails when they are used up, nothing is known of the other.

There is one rule here for each way of making searches. A search that fails after its steps were
used up is a failure of all that it is part of, since every way of going on asks for steps first.
-/

namespace Monotonicity

variable {α β ρ : Type} {T : Theory} {fuel : Nat} {s t u : State}

/-- The theory with another limit on the steps. -/
def Theory.refuel (T : Theory) (fuel : Nat) : Theory :=
  { T with limits := { T.limits with fuel := fuel } }

theorem Theory.spent_refuel (l : Ledger) :
    (T.refuel fuel).spent l = true ↔ fuel ≤ l.stats.steps :=
  decide_eq_true_iff

/-- The steps of the theory are used up, and others have more of them. -/
def Theory.Cut (T : Theory) (fuel : Nat) (s : State) : Prop :=
  T.limits.fuel < fuel ∧ T.spent s.ledger = true

theorem Theory.Cut.of_le (h : T.Cut fuel s)
    (hle : s.ledger.stats.steps ≤ t.ledger.stats.steps) : T.Cut fuel t := by
  refine ⟨h.1, ?_⟩
  have hspent : T.limits.fuel ≤ s.ledger.stats.steps := by simpa [Theory.spent] using h.2
  simpa [Theory.spent] using hspent.trans hle

theorem Theory.not_cut_self : ¬ T.Cut T.limits.fuel s := fun h => absurd h.1 (lt_irrefl _)

namespace Outcome

/-- The outcome; a success without the scope that it leaves. -/
def bare : Outcome α → Outcome α
  | .success a t => .success a t.bare
  | o => o

/-- The second outcome is the first one, unless that is a failure with the steps used up. -/
def Agrees (T : Theory) (fuel : Nat) (o o' : Outcome α) : Prop :=
  o'.bare = o.bare ∨ ∃ why t, o = .failure why t ∧ T.Cut fuel t

variable {o o' : Outcome α} {why : Failure} {a : α} {l : Ledger}

theorem Agrees.refl (o : Outcome α) : o.Agrees T fuel o := .inl rfl

theorem bare_eq_failure (h : o.bare = .failure why t) : o = .failure why t := by
  cases o with
  | success a t => cases h
  | failure why t => exact h
  | overflow l => cases h

theorem bare_eq_overflow (h : o.bare = .overflow l) : o = .overflow l := by
  cases o with
  | success a t => cases h
  | failure why t => cases h
  | overflow l => exact h

theorem bare_eq_success (h : o.bare = .success a t) : ∃ u, o = .success a u ∧ u.bare = t := by
  cases o with
  | success b u =>
    cases h
    exact ⟨u, rfl, rfl⟩
  | failure why t => cases h
  | overflow l => cases h

/-- Both outcomes with their states changed outside of what a success is judged by. -/
theorem Agrees.mapState {f f' : State → State} (h : o.Agrees T fuel o')
    (hf : ∀ t, (f t).bare = t.bare) (hf' : ∀ t, (f' t).bare = t.bare)
    (hsame : ∀ why t, o = .failure why t → f' t = f t) :
    (o.mapState f).Agrees T fuel (o'.mapState f') := by
  rcases h with h | ⟨why, t, rfl, hcut⟩
  · cases o with
    | success a t =>
      obtain ⟨u, rfl, hu⟩ := bare_eq_success h
      exact .inl (by simp [Outcome.mapState, bare, hf, hf', hu])
    | failure why t =>
      obtain rfl := bare_eq_failure h
      exact .inl (by simp [Outcome.mapState, bare, hsame why t rfl])
    | overflow l =>
      obtain rfl := bare_eq_overflow h
      exact .inl rfl
  · refine .inr ⟨why, f t, rfl, hcut.of_le ?_⟩
    have hledger : (f t).bare.ledger = t.bare.ledger := by rw [hf]
    exact (congrArg (·.stats.steps) hledger).ge

end Outcome

namespace Search

variable {m m' : Search ρ} {F G : State → Prop} {S R : ρ → State → Prop} {goal : Goal}

/-- From `s`, the search `m'` ends as `m` does. Failures of `m` leave states with `F`, and successes
are ones with `S`. -/
structure Follows (T : Theory) (fuel : Nat) (m m' : Search ρ) (s : State) (F : State → Prop)
    (S : ρ → State → Prop) : Prop where
  ends : m.Ends s F fun a t => S a t.bare
  agrees : (m.run s).Agrees T fuel (m'.run s)

/-- What grew from `t` grew from whatever `t` grew from. -/
theorem Follows.from (h : Follows T fuel m m' t t.Grown S) (hs : s.Grown t) :
    Follows T fuel m m' t s.Grown S :=
  ⟨Yields.from h.ends hs, h.agrees⟩

namespace Follows

/-- A search follows itself. -/
theorem self (h : m.Ends s F fun a t => S a t.bare) : Follows T fuel m m s F S := ⟨h, .refl _⟩

theorem mono (h : Follows T fuel m m' s F S) (hF : ∀ t, F t → G t) :
    Follows T fuel m m' s G S :=
  ⟨h.ends.mono hF fun _ _ => id, h.agrees⟩

/-- With the steps of the theory itself nothing is cut short. -/
theorem bare_eq (h : Follows T T.limits.fuel m m' s F S) : (m'.run s).bare = (m.run s).bare :=
  h.agrees.resolve_right fun ⟨_, _, _, hcut⟩ => Theory.not_cut_self hcut

/-! ## Failing -/

theorem fail {why : Failure} : Follows T fuel (fail why) (Search.fail why) s s.Grown S :=
  self (State.Grown.refl s)

theorem noRule : Follows T fuel (noRule goal) (Search.noRule goal) s s.Grown S :=
  self (State.Grown.refl s)

theorem noCandidate : Follows T fuel (noCandidate goal) (Search.noCandidate goal) s s.Grown S :=
  self (State.Grown.refl s)

theorem gap : Follows T fuel (gap goal) (Search.gap goal) s s.Grown S :=
  self (State.Grown.refl s)

theorem failBest {best : Option Failure} (h : Follows T fuel m m' s s.Grown S) :
    Follows T fuel (failBest m best) (Search.failBest m' best) s s.Grown S := by
  cases best with
  | none => exact h
  | some why => exact fail

/-! ## Reading the state -/

theorem subst {f f' : Subst → Search ρ} (h : Follows T fuel (f s.subst) (f' s.subst) s F S) :
    Follows T fuel (subst >>= f) (Search.subst >>= f') s F S := ⟨h.ends, h.agrees⟩

theorem hyps {f f' : List Hypothesis → Search ρ}
    (h : Follows T fuel (f s.hyps) (f' s.hyps) s F S) :
    Follows T fuel (hyps >>= f) (Search.hyps >>= f') s F S := ⟨h.ends, h.agrees⟩

theorem ledger {f f' : Ledger → Search ρ} (h : Follows T fuel (f s.ledger) (f' s.ledger) s F S) :
    Follows T fuel (ledger >>= f) (Search.ledger >>= f') s F S := ⟨h.ends, h.agrees⟩

theorem active {f f' : List Goal → Search ρ}
    (h : Follows T fuel (f s.active) (f' s.active) s F S) :
    Follows T fuel (active >>= f) (Search.active >>= f') s F S := ⟨h.ends, h.agrees⟩

theorem ite {c : Prop} [Decidable c] {n n' : Search ρ} (h : c → Follows T fuel m m' s F S)
    (h' : ¬ c → Follows T fuel n n' s F S) :
    Follows T fuel (if c then m else n) (if c then m' else n') s F S := by
  by_cases hc : c
  · rw [if_pos hc, if_pos hc]
    exact h hc
  · rw [if_neg hc, if_neg hc]
    exact h' hc

/-! ## Recovering -/

/-- An attempt leaves nothing behind if it fails. -/
theorem attempt (h : Follows T fuel m m' s s.Grown S) :
    Follows T fuel (attempt m) (Search.attempt m') s s.Kept S := by
  refine ⟨h.ends.attempt, ?_⟩
  rcases h.agrees with hag | ⟨why, t, hrun, hcut⟩
  · cases hrun : m.run s with
    | success a t =>
      rw [hrun] at hag
      obtain ⟨u, hrun', hu⟩ := Outcome.bare_eq_success hag
      exact .inl (by simp [Search.attempt, hrun, hrun', Outcome.bare, hu])
    | failure why t =>
      rw [hrun] at hag
      have hrun' := Outcome.bare_eq_failure hag
      exact .inl (by simp [Search.attempt, hrun, hrun'])
    | overflow l =>
      rw [hrun] at hag
      have hrun' := Outcome.bare_eq_overflow hag
      exact .inl (by simp [Search.attempt, hrun, hrun'])
  · exact .inr ⟨why, t.undo s.mark, by simp [Search.attempt, hrun], hcut⟩

/-- What follows after a failure has to fail if the steps are used up. -/
theorem recover {handler handler' : Failure → Search ρ} (h : Follows T fuel m m' s G S)
    (hcut : ∀ why t, G t → T.Cut fuel t → ∃ why' u,
      (handler why).run t = .failure why' u ∧ T.Cut fuel u)
    (hh : ∀ why t, G t → Follows T fuel (handler why) (handler' why) t F S) :
    Follows T fuel (m.recover handler) (m'.recover handler') s F S := by
  refine ⟨h.ends.recover fun why t ht => (hh why t ht).ends, ?_⟩
  unfold Outcome.Agrees
  rw [run_recover, run_recover]
  rcases h.agrees with hag | ⟨why, t, hrun, hspent⟩
  · cases hrun : m.run s with
    | success a t =>
      rw [hrun] at hag
      obtain ⟨u, hrun', hu⟩ := Outcome.bare_eq_success hag
      exact .inl (by simp [hrun', Outcome.bare, hu])
    | failure why t =>
      rw [hrun] at hag
      rw [Outcome.bare_eq_failure hag]
      exact (hh why t (h.ends.of_failure hrun)).agrees
    | overflow l =>
      rw [hrun] at hag
      exact .inl (by simp [Outcome.bare_eq_overflow hag])
  · rw [hrun]
    exact .inr (hcut why t (h.ends.of_failure hrun) hspent)

/-! ## Scopes -/

/-- A search run in a changed state, the scope changed at its end. -/
theorem within {before after : State → State} (hafter : ∀ t, (after t).bare = t.bare)
    (h : Follows T fuel m m' (before s) (fun t => F (after t)) S) :
    Follows T fuel (within before after m) (Search.within before after m') s F S := by
  refine ⟨Ends.within before after (h.ends.mono (fun _ => id) fun a t ht => ?_),
    h.agrees.mapState hafter hafter fun _ _ _ => rfl⟩
  rwa [hafter]

end Follows

/-- A search that returns a value, and then two that go on from it to what grew from the start. -/
theorem Gets.follows_from {m : Search α} {Q : α → State → Prop} {f f' : α → Search ρ}
    (h : m.Gets s Q)
    (hf : ∀ a t, s.Grown t → Q a t → Follows T fuel (f a) (f' a) t s.Grown S) :
    Follows T fuel (m >>= f) (m >>= f') s s.Grown S := by
  refine ⟨Ends.bind (Ends.mono h (fun _ => id) fun a t ha => (hf a t ha.1 ha.2).ends), ?_⟩
  unfold Outcome.Agrees
  rw [run_bind, run_bind]
  cases hrun : m.run s with
  | success a t =>
    obtain ⟨ht, ha⟩ := Ends.of_success h hrun
    exact (hf a t ht ha).agrees
  | failure why t => exact .inl rfl
  | overflow l => exact .inl rfl

/-- A search that returns a value, and then two that go on from it. -/
theorem Gets.follows {m : Search α} {Q : α → State → Prop} {f f' : α → Search ρ}
    (h : m.Gets s Q)
    (hf : ∀ a t, s.Grown t → Q a t → Follows T fuel (f a) (f' a) t t.Grown S) :
    Follows T fuel (m >>= f) (m >>= f') s s.Grown S :=
  h.follows_from fun a t ht ha => (hf a t ht ha).from ht

/-! ## Alternatives -/

/-- Whether the steps are used up is the same for both, or else only the second goes on. -/
theorem spent_follows (hle : T.limits.fuel ≤ fuel) {stop : Search ρ}
    (hstop : ∃ why, stop.run s = .failure why s) (hs : F s)
    (h : Follows T fuel m m' s F S) :
    Follows T fuel (if T.spent s.ledger = true then stop else m)
      (if (T.refuel fuel).spent s.ledger = true then stop else m') s F S := by
  obtain ⟨why, hrun⟩ := hstop
  by_cases hspent : T.spent s.ledger = true
  · rw [if_pos hspent]
    refine ⟨by simpa [Ends, hrun] using hs, ?_⟩
    rcases Nat.eq_or_lt_of_le hle with rfl | hlt
    · have hspent' : (T.refuel T.limits.fuel).spent s.ledger = true := hspent
      exact .inl (by rw [if_pos hspent'])
    · exact .inr ⟨why, s, hrun, hlt, hspent⟩
  · have hmore : (T.refuel fuel).spent s.ledger ≠ true := by
      intro hmore
      exact hspent (by simpa [Theory.spent] using hle.trans (Theory.spent_refuel _ |>.1 hmore))
    rwa [if_neg hspent, if_neg hmore]

theorem unlessSpent_follows (hle : T.limits.fuel ≤ fuel) {why : Failure} (hs : F s)
    (h : Follows T fuel m m' s F S) :
    Follows T fuel (unlessSpent T why m) (unlessSpent (T.refuel fuel) why m') s F S :=
  Follows.ledger (spent_follows hle ⟨why, rfl⟩ hs h)

theorem unlessSpent_cut {why : Failure} (h : T.Cut fuel t) :
    ∃ why' u, (unlessSpent T why m).run t = .failure why' u ∧ T.Cut fuel u := by
  refine ⟨why, t, ?_, h⟩
  change (if T.spent t.ledger = true then fail why else m).run t = _
  rw [if_pos h.2]
  rfl

/-- Alternatives are tried one after the other from the state that the first one found. -/
theorem tryEach_follows (hle : T.limits.fuel ≤ fuel) {run run' : α → Search ρ}
    {otherwise otherwise' : Option Failure → Search ρ} {as : List α} {best : Option Failure}
    (hrun : ∀ a ∈ as, ∀ t, s.Kept t → Follows T fuel (run a) (run' a) t t.Grown S)
    (hother : ∀ best t, s.Kept t →
      Follows T fuel (otherwise best) (otherwise' best) t t.Grown S) :
    Follows T fuel (tryEach T run otherwise as best)
      (tryEach (T.refuel fuel) run' otherwise' as best) s s.Grown S := by
  induction as generalizing s best with
  | nil => exact hother best s (.refl s)
  | cons a as ih =>
    refine (hrun a List.mem_cons_self s (.refl s)).attempt.recover
      (fun _ _ _ hcut => unlessSpent_cut hcut) fun why t ht => ?_
    refine unlessSpent_follows hle ht.grown ((ih ?_ ?_).from ht.grown)
    · exact fun b hb u hu => hrun b (List.mem_cons_of_mem a hb) u (ht.trans hu)
    · exact fun best u hu => hother best u (ht.trans hu)

/-! ## Bridges -/

/-- Whether a bridge was crossed is written down in the ledger only, and after a failure the bridge
fails. -/
theorem bridging_follows {search search' : (Proof → Search ρ) → Search ρ}
    {k k' : Proof → Search ρ} {onFailure : Bool → Failure → Search ρ}
    (hsearch : ∀ cross cross' : Proof → Search ρ,
      (∀ p u, (∀ v, u.Kept v → Follows T fuel (k p) (k' p) v v.Grown S) →
        Follows T fuel (cross p) (cross' p) u u.Grown S) →
      ∀ t, s.Kept t → Follows T fuel (search cross) (search' cross') t t.Grown S)
    (hfail : ∀ crossed why t, ∃ why', (onFailure crossed why).run t = .failure why' t) :
    Follows T fuel (bridging search k onFailure) (bridging search' k' onFailure) s s.Grown S := by
  refine beginBridge_gets.follows_from fun number t _ ht => ?_
  obtain ⟨ht, rfl⟩ := ht
  refine (hsearch _ _ (fun p u hk => ?_) t ht).recover (fun why u _ hcut => ?_) fun why u hu => ?_
  · exact (enterLedger_gets (.cross u.ledger _)).follows fun _ v _ hv => hk v hv.1
  · obtain ⟨why', hrun⟩ := hfail (u.ledger.crossed.contains s.ledger.bridges) why
      { u with ledger := { u.ledger with crossed := u.ledger.crossed.erase s.ledger.bridges } }
    exact ⟨why', _, hrun, hcut⟩
  · have herased := (ht.grown.trans hu).erase le_rfl
    obtain ⟨why', hrun⟩ := hfail (u.ledger.crossed.contains s.ledger.bridges) why
      { u with ledger := { u.ledger with crossed := u.ledger.crossed.erase s.ledger.bridges } }
    have hends : (onFailure (u.ledger.crossed.contains s.ledger.bridges) why).Ends
        { u with ledger := { u.ledger with crossed := u.ledger.crossed.erase s.ledger.bridges } }
        s.Grown fun a t => S a t.bare := by
      unfold Ends
      rw [hrun]
      exact herased
    exact Follows.self hends

end Search

end Monotonicity
