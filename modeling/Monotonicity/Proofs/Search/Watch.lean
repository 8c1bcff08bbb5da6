import Monotonicity.Proofs.Search.Course
import Monotonicity.Proofs.Search.Lockstep
import Monotonicity.Search.Solver

/-!
# The solver under observation

Every call of the solver for a goal is made at a place, which the calls around it determine: the
hypotheses that they put into scope and the goals that they have in progress. `solveWatched` is the
solver with two tests at each call. One is made at the entry: the call has to be at its place. The
other is made whenever a proof is handed on, and compares the state at the entry with the state now.
The continuation then runs with nothing in scope but the hypotheses of the place, and what was in
scope before is put back by hand if it refuses the proof. Where a test fails an alarm is raised,
which may be any search whatever, also one that aborts the whole run.

If the rules of a theory are steady, the solver under observation ends as the solver does, whatever
the alarm: no test ever fails, and keeping the scope by hand makes no difference. A rule is steady if
it does nothing but follow a course, and goes in lockstep with itself when the provers that it is
given do.
-/

namespace Monotonicity

/-- Where a goal is proved: the hypotheses in scope and the goals in progress. -/
structure Place where
  hyps : List Hypothesis
  active : List Goal
  depth : Nat

namespace State

/-- The place that a search is at. -/
def place (s : State) : Place := ⟨s.hyps, s.active, s.depth⟩

/-- The search is at the place, perhaps with further hypotheses in scope. -/
structure At (s : State) (w : Place) : Prop where
  hyps : w.hyps <+: s.hyps
  active : s.active = w.active
  depth : s.depth = w.depth

theorem at_place (s : State) : s.At s.place := ⟨List.prefix_refl _, rfl, rfl⟩

theorem Grown.place {s t : State} (h : s.Grown t) : t.place = s.place := by
  simp [State.place, h.hyps, h.active, h.depth]

theorem At.assume {s : State} {w : Place} (h : s.At w) (further : List Hypothesis) :
    (s.assume further).At w :=
  ⟨h.hyps.trans (List.prefix_append ..), h.active, h.depth⟩

end State

namespace Search

variable {α ρ : Type}

/-- Runs a search with only the given hypotheses in scope, and puts back those that were. -/
def under (hyps : List Hypothesis) (m : Search α) : Search α where
  run s := (m.run { s with hyps := hyps }).mapState fun t => { t with hyps := s.hyps }
  trace s := (within ({ · with hyps := hyps }) ({ · with hyps := s.hyps }) m).trace s

open scoped Classical in
/-- Runs a search in a state with the property, and raises the alarm in any other. -/
noncomputable def expect (ok : State → Prop) (alarm m : Search α) : Search α where
  run s := if ok s then m.run s else alarm.run s
  trace s := if ok s then m.trace s else alarm.trace s

/-- A prover under observation at a place. -/
noncomputable def watched (check : Handover) (alarm : (ρ : Type) → Search ρ) (w : Place)
    (prove : Prover) : Prover :=
  fun ρ goal k => do
    let s ← state
    expect (·.At w) (alarm ρ)
      (prove ρ goal fun p => expect (check s goal p) (alarm ρ) (under w.hyps (k p)))

/-- The solver with every call under observation, the outermost at the given place. -/
noncomputable def solveWatched (T : Theory) (check : Handover) (alarm : (ρ : Type) → Search ρ) :
    Nat → Place → Prover
  | 0, w => watched check alarm w fun _ _ _ => exhausted
  | room + 1, w => watched check alarm w fun _ goal k => do
    let s ← state
    if T.spent (← ledger) then exhausted
    else
      let inner : Place := ⟨s.hyps, goal.resolve s.subst :: w.active, w.depth + 1⟩
      solveResolved T (solveWatched T check alarm room inner) (goal.resolve (← subst)) k

theorem expect_run {ok : State → Prop} {alarm m : Search α} {s : State} (h : ok s) :
    (expect ok alarm m).run s = m.run s := by
  simp [expect, h]

/-! ## Provers in lockstep -/

variable {T : Theory} {fuel : Nat} {F : Handover} {w : Place} {prove prove' : Prover}
  {s t : State} {goal g : Goal} {k k' : Proof → Search ρ} {m m' : Search ρ}
  {S : ρ → State → Prop} {ps : List Proof}

/-- At the place the second prover follows the first, if the continuations do so, the second one
under the hypotheses of the place. Of the proofs handed on the relation is known. -/
def Paired (T : Theory) (fuel : Nat) (F : Handover) (w : Place) (prove prove' : Prover) : Prop :=
  ∀ ⦃ρ : Type⦄ ⦃goal : Goal⦄ ⦃k k' : Proof → Search ρ⦄ ⦃s : State⦄ ⦃S : ρ → State → Prop⦄,
    s.At w → s.subst.Acyclic →
    (∀ p t, s.Grown t → F s goal p t →
      Follows T fuel (k p) (under w.hyps (k' p)) t t.Grown S) →
    Follows T fuel (prove ρ goal k) (prove' ρ goal k') s s.Grown S

/-- The method follows courses only, and goes in lockstep with itself if the provers do. -/
def Steady (T : Theory) (fuel : Nat) (F : Handover) (method : Method) : Prop :=
  ∀ ⦃w : Place⦄ ⦃prove prove' : Prover⦄, Paired T fuel F w prove prove' →
    ∀ ⦃ρ : Type⦄ ⦃name : String⦄ ⦃goal : Goal⦄ ⦃emit emit' : Reduction → Search ρ⦄ ⦃s : State⦄
      ⦃S : ρ → State → Prop⦄, s.place = w → s.subst.Acyclic →
      (∀ r t, Emitted T F s goal r t → Follows T fuel (emit r) (emit' r) t t.Grown S) →
      Follows T fuel (method.run T prove name goal emit)
        (method.run (T.refuel fuel) prove' name goal emit') s s.Grown S

/-- With the hypotheses in scope that are meant to be, keeping them by hand changes nothing. -/
theorem Follows.under_self {hyps : List Hypothesis} (hs : s.hyps = hyps)
    (h : Follows T fuel m m' s s.Grown S) : Follows T fuel m (under hyps m') s s.Grown S := by
  refine ⟨h.ends, ?_⟩
  have hstate : { s with hyps := hyps } = s := by rw [← hs]
  have hfollow : ((m.run s).mapState id).Agrees T fuel
      ((m'.run s).mapState fun t => { t with hyps := s.hyps }) := by
    refine h.agrees.mapState (fun _ => rfl) (fun _ => rfl) fun why t hrun => ?_
    have hgrown : s.Grown t := h.ends.of_failure hrun
    rw [← hgrown.hyps]
    rfl
  have hid : (m.run s).mapState id = m.run s := by cases m.run s <;> rfl
  rw [hid] at hfollow
  unfold under
  dsimp only
  rwa [hstate]

/-- A continuation under the hypotheses of the place, before and after those of a prover's own are
withdrawn. -/
theorem Follows.withdrawing {further : List Hypothesis} (hs : (s.assume further).Grown t)
    (h : Follows T fuel m m' (t.withdraw s.hyps.length)
      (t.withdraw s.hyps.length).Grown S) :
    Follows T fuel (withdrawing s.hyps.length m)
      (under s.hyps (withdrawing s.hyps.length m')) t t.Grown S := by
  have hwithdraw : t.withdraw s.hyps.length = { t with hyps := s.hyps } := by
    simp [State.withdraw, hs.hyps, State.assume]
  constructor
  · exact Ends.within (·.withdraw s.hyps.length) _
      (h.ends.mono (fun u hu => hs.assume_drop hu) fun _ _ => id)
  · unfold under Search.withdrawing Search.within
    have hmap : ∀ (o : Outcome ρ) (f g : State → State),
        (o.mapState f).mapState g = o.mapState (g ∘ f) := fun o f g => by cases o <;> rfl
    dsimp only
    rw [hmap]
    have htake : ({ t with hyps := s.hyps } : State).withdraw s.hyps.length =
        t.withdraw s.hyps.length := by
      rw [hwithdraw]
      simp [State.withdraw]
    rw [htake]
    refine h.agrees.mapState (fun _ => rfl) (fun _ => rfl) fun why u hrun => ?_
    have hgrown := h.ends.of_failure hrun
    have hu : u.hyps = s.hyps := by rw [hgrown.hyps, hwithdraw]
    simp [State.withdraw, State.assume, hu, hs.hyps]

theorem Follows.expect {G : State → Prop} (ok : State → Prop) (alarm : Search ρ) (hok : ok s)
    (h : Follows T fuel m m' s G S) : Follows T fuel m (expect ok alarm m') s G S := by
  refine ⟨h.ends, ?_⟩
  rw [expect_run hok]
  exact h.agrees

/-- A goal that is proved in the course of a rule's application. -/
theorem Paired.proves (hprove : Paired T fuel F w prove prove') (hs : s.place = w)
    (hacyclic : s.subst.Acyclic) (hcourse : Course T F s goal ps t)
    (hg : ∀ V, Encloses T s goal V ps t → g.Over V)
    (hk : ∀ p u, t.Grown u → Course T F s goal (ps ++ [p]) u →
      Follows T fuel (k p) (k' p) u u.Grown S) :
    Follows T fuel (prove ρ g k) (prove' ρ g k') t t.Grown S := by
  obtain rfl : t.place = w := hcourse.grown.place.trans hs
  refine hprove t.at_place (hcourse.grown.acyclic hacyclic) fun p u hu hp => ?_
  have hassume : t.assume [] = t := by simp [State.assume]
  have hwithdraw : u.withdraw t.hyps.length = u := by simp [State.withdraw, ← hu.hyps]
  have hnext : Course T F s goal (ps ++ [p]) u := by
    have h := hcourse.prove [] g (by simp) hg (u := u) (p := p) (by rwa [hassume])
      (by rwa [hassume])
    rwa [hwithdraw] at h
  exact (hk p u hu hnext).under_self hu.hyps

/-- Further hypotheses are in scope for the prover, and withdrawn for the continuation. -/
theorem Paired.assuming (hprove : Paired T fuel F w prove prove') (ht : t.place = w)
    (hacyclic : t.subst.Acyclic) {further : List Hypothesis}
    (hk : ∀ p u, (t.assume further).Grown u → F (t.assume further) g p u →
      Follows T fuel (k p) (k' p) (u.withdraw t.hyps.length)
        (u.withdraw t.hyps.length).Grown S) :
    Follows T fuel (proveAssuming prove further g k) (proveAssuming prove' further g k') t
      t.Grown S := by
  subst ht
  refine Follows.hyps (Follows.within (fun _ => rfl) ?_)
  refine Follows.mono (hprove (t.at_place.assume further) hacyclic fun p u hu hp => ?_)
    fun u hu => hu.of_assume
  exact Follows.withdrawing hu (hk p u hu hp)

/-- A goal that is proved under further hypotheses in the course of a rule's application. -/
theorem Paired.proveAssuming (hprove : Paired T fuel F w prove prove') (hs : s.place = w)
    (hacyclic : s.subst.Acyclic) (hcourse : Course T F s goal ps t)
    {further : List Hypothesis}
    (hfurther : ∀ V, Encloses T s goal V ps t → ∀ h ∈ further, h.Over V)
    (hg : ∀ V, Encloses T s goal V ps t → g.Over V)
    (hk : ∀ p u, t.Grown u → Course T F s goal (ps ++ [p]) u →
      Follows T fuel (k p) (k' p) u u.Grown S) :
    Follows T fuel (proveAssuming prove further g k) (proveAssuming prove' further g k') t
      t.Grown S := by
  refine hprove.assuming (hcourse.grown.place.trans hs) (hcourse.grown.acyclic hacyclic)
    fun p u hu hp => ?_
  exact hk p _ hu.of_assume (hcourse.prove further g hfurther hg hu hp)

/-- Goals that are proved from left to right. -/
theorem Paired.proveAll (hprove : Paired T fuel F w prove prove') (hs : s.place = w)
    (hacyclic : s.subst.Acyclic) {k k' : List Proof → Search ρ} {goals : List Goal}
    (hcourse : Course T F s goal ps t)
    (hgoals : ∀ V, Encloses T s goal V ps t → ∀ g ∈ goals, g.Over V)
    (hk : ∀ qs u, Course T F s goal qs u → Follows T fuel (k qs) (k' qs) u u.Grown S) :
    Follows T fuel (proveAll prove k goals ps) (proveAll prove' k' goals ps) t t.Grown S := by
  induction goals generalizing t ps with
  | nil => exact hk ps t hcourse
  | cons g goals ih =>
    refine hprove.proves hs hacyclic hcourse (fun V hV => hgoals V hV g List.mem_cons_self)
      fun p u hu hnext => ih hnext fun V hV g hg => ?_
    have hback := hV.of_grown (hnext.grown.acyclic hacyclic) hu (List.prefix_append ps [p])
    exact hgoals V hback g (List.mem_cons_of_mem _ hg)

/-- Two terms in sight are unified, or the search fails. -/
theorem unify_follows {a b : Term} {n : Search ρ} (hcourse : Course T F s goal ps t)
    (ha : Seen T s goal ps t a) (hb : Seen T s goal ps t b)
    (h : ∀ u, t.Grown u → Course T F s goal ps u → Follows T fuel m m' u u.Grown S)
    (hn : ∀ u, Follows T fuel n n u u.Grown S) :
    Follows T fuel (Search.unify a b >>= fun ok => if ok = true then m else n)
      (Search.unify a b >>= fun ok => if ok = true then m' else n) t t.Grown S := by
  refine (hcourse.unify_gets ha hb).follows fun ok u hu hnext => ?_
  cases ok with
  | true => exact h u hu hnext
  | false => exact hn u

/-- A method that returns its reduction and does not look at the limits. -/
theorem Steady.of_gets {method : Method} (reduce : Goal → Search Reduction)
    (hrun : ∀ {ρ : Type} (prove : Prover) (name : String) (goal : Goal)
      (emit : Reduction → Search ρ), method.run T prove name goal emit = reduce goal >>= emit)
    (hrefuel : ∀ {ρ : Type} (prove : Prover) (name : String) (goal : Goal)
      (emit : Reduction → Search ρ),
      method.run (T.refuel fuel) prove name goal emit = reduce goal >>= emit)
    (h : ∀ goal s, s.subst.Acyclic → (reduce goal).Gets s (Emitted T F s goal)) :
    Steady T fuel F method := by
  intro w prove prove' _ ρ name goal emit emit' s S _ hacyclic hemit
  rw [hrun, hrefuel]
  exact (h goal s hacyclic).follows fun r t _ hr => hemit r t hr

/-! ## The solver -/

theorem applyRule_follows (hprove : Paired T fuel F w prove prove') {rule : Rule}
    (hrule : Steady T fuel F rule.method) (hs : s.place = w) (hacyclic : s.subst.Acyclic)
    (hk : ∀ ps t, Course T F s goal ps t →
      Follows T fuel (k (.step rule.name ps)) (k' (.step rule.name ps)) t t.Grown S) :
    Follows T fuel (applyRule T prove goal k rule) (applyRule (T.refuel fuel) prove' goal k' rule)
      s s.Grown S :=
  hrule hprove hs hacyclic fun _ _ hr => hprove.proveAll hs hacyclic hr.course hr.subgoals hk

theorem tryRules_follows (hle : T.limits.fuel ≤ fuel) (hprove : Paired T fuel F w prove prove')
    {rules : List Rule} (hrules : ∀ rule ∈ rules, Steady T fuel F rule.method)
    {best : Option Failure} (hs : s.place = w) (hacyclic : s.subst.Acyclic)
    (hk : ∀ rule ∈ rules, ∀ s₁ ps t, s.Kept s₁ → Course T F s₁ goal ps t →
      Follows T fuel (k (.step rule.name ps)) (k' (.step rule.name ps)) t t.Grown S) :
    Follows T fuel (tryRules T prove goal k rules best)
      (tryRules (T.refuel fuel) prove' goal k' rules best) s s.Grown S := by
  induction rules generalizing s best with
  | nil => exact Follows.failBest Follows.noRule
  | cons rule rules ih =>
    rw [List.forall_mem_cons] at hrules hk
    refine Follows.subst ?_
    split
    · refine Follows.ledger (spent_follows hle ⟨_, rfl⟩ (.refl s) ?_)
      -- the application is counted, tried, taken back if it fails, and counted again
      refine (count_gets fun n => by simp [Stats.le_def]).follows fun _ t _ ht => ?_
      have htry := applyRule_follows hprove hrules.1 (ht.1.grown.place.trans hs)
        (ht.1.grown.acyclic hacyclic) fun ps u hu => hk.1 t ps u ht.1 hu
      refine htry.attempt.recover (fun why u _ hcut => ?_) fun why u hu => ?_
      · exact unlessSpent_cut hcut
      · refine Follows.from ?_ hu.grown
        refine (count_gets fun n => by simp [Stats.le_def]).follows fun _ v _ hv => ?_
        have hsv : s.Kept v := (ht.1.trans hu).trans hv.1
        refine unlessSpent_follows hle (.refl v) (ih hrules.2 (hsv.grown.place.trans hs)
          (hsv.grown.acyclic hacyclic) fun r hr s₁ ps t h => hk.2 r hr s₁ ps t (hsv.trans h))
    · exact ih hrules.2 hs hacyclic hk.2

/-- A goal is in progress for a search, and no longer so for the continuation. -/
theorem outside_follows (hs : (s.enter goal).Grown t)
    (h : Follows T fuel m m' t.leave t.leave.Grown S) :
    Follows T fuel (outside goal m) (outside goal m') t t.Grown S :=
  Follows.within (fun _ => rfl) (h.mono fun _ hu => hs.enter_leave hu)

theorem inside_follows
    (h : ∀ t, s.Kept t → Follows T fuel m m' (t.enter goal) (t.enter goal).Grown S) :
    Follows T fuel (inside goal m) (inside goal m') s s.Grown S := by
  have hcount : (count fun n => { n with maxDepth := max n.maxDepth (s.depth + 1) }).Gets s
      fun _ t => s.Kept t ∧ t.ledger.symbols = s.ledger.symbols :=
    count_gets fun n => by simp [Stats.le_def]
  have hin : Follows T fuel
      (count (fun n => { n with maxDepth := max n.maxDepth (s.depth + 1) }) >>=
        fun _ => Search.within (·.enter goal) State.leave m)
      (count (fun n => { n with maxDepth := max n.maxDepth (s.depth + 1) }) >>=
        fun _ => Search.within (·.enter goal) State.leave m') s s.Grown S :=
    hcount.follows fun _ t _ ht =>
      Follows.within (fun _ => rfl) ((h t ht.1).mono fun _ hu => hu.of_enter)
  exact ⟨hin.ends, hin.agrees⟩

theorem solveResolved_follows (hle : T.limits.fuel ≤ fuel)
    (hrules : ∀ rule ∈ T.rules, Steady T fuel F rule.method)
    (hprove : Paired T fuel F (s.enter goal).place prove prove') (hacyclic : s.subst.Acyclic)
    (hk : ∀ rule ∈ T.rules, ∀ s₁ ps t, s.Kept s₁ → Course T F (s₁.enter goal) goal ps t →
      Follows T fuel (k (.step rule.name ps)) (k' (.step rule.name ps)) t.leave t.leave.Grown S) :
    Follows T fuel (solveResolved T prove goal k) (solveResolved (T.refuel fuel) prove' goal k') s
      s.Grown S := by
  have hin : Follows T fuel
      (inside goal (tryRules T prove goal (fun p => outside goal (k p)) T.rules none))
      (inside goal (tryRules (T.refuel fuel) prove' goal (fun p => outside goal (k' p))
        T.rules none)) s s.Grown S := by
    refine inside_follows fun s₁ h₁ => ?_
    have hplace : (s₁.enter goal).place = (s.enter goal).place := by
      simp [State.place, State.enter, h₁.hyps, h₁.active, h₁.depth]
    refine tryRules_follows hle hprove hrules hplace (h₁.subst ▸ hacyclic) ?_
    intro rule hrule s₂ ps t h₂ hcourse
    refine outside_follows (h₂.grown.trans hcourse.grown) ?_
    -- counting inside the goal is counting before it was entered
    obtain ⟨s₃, rfl, h₃⟩ : ∃ s₃ : State, s₂ = s₃.enter goal ∧ s₁.Kept s₃ := by
      refine ⟨{ s₁ with ledger := s₂.ledger }, ?_, ⟨rfl, rfl, rfl, rfl, rfl, h₂.ledger⟩⟩
      obtain ⟨hsubst, hhyps, hdelayed, hactive, hdepth, -⟩ := h₂
      cases s₂
      simp_all [State.enter]
    exact hk rule hrule s₃ ps t (h₁.trans h₃) hcourse
  exact Follows.active (Follows.ite (fun _ => .fail) fun _ => hin)

/-- Where the rules are steady and the relation is closed, the solver under observation follows the
solver. The tests at the hand-overs are those that the relation answers for. -/
theorem solveWatched_paired (hle : T.limits.fuel ≤ fuel)
    (hrules : ∀ rule ∈ T.rules, Steady T fuel F rule.method) (hF : F.Closed T) {check : Handover}
    (hcheck : ∀ s goal p t, s.subst.Acyclic → s.Grown t → F s goal p t → check s goal p t)
    (alarm : (ρ : Type) → Search ρ) (room : Nat) (w : Place) :
    Paired T fuel F w (solve T room) (solveWatched (T.refuel fuel) check alarm room w) := by
  induction room generalizing w with
  | zero =>
    intro ρ goal k k' s S hs _ _
    have hstop : Follows T fuel exhausted exhausted s s.Grown S :=
      .self (State.Grown.refl s)
    exact hstop.expect (·.At w) (alarm ρ) hs
  | succ room ih =>
    intro ρ goal k k' s S hs hacyclic hk
    let inner : Place := ⟨s.hyps, goal.resolve s.subst :: w.active, w.depth + 1⟩
    have hinner : (s.enter (goal.resolve s.subst)).place = inner := by
      simp [State.place, State.enter, inner, hs.active, hs.depth]
    have hgo : Follows T fuel (solve T (room + 1) ρ goal k)
        (do
          if (T.refuel fuel).spent (← ledger) then exhausted
          else
            solveResolved (T.refuel fuel)
              (solveWatched (T.refuel fuel) check alarm room inner) (goal.resolve (← subst))
              fun p => expect (check s goal p) (alarm ρ) (under w.hyps (k' p)))
        s s.Grown S := by
      refine Follows.ledger (spent_follows hle ⟨_, rfl⟩ (.refl s) (Follows.subst ?_))
      refine solveResolved_follows hle hrules (hinner ▸ ih inner) hacyclic ?_
      intro rule hrule s₁ ps t h₁ hcourse
      have hgrown : s.Grown t.leave := h₁.grown.trans hcourse.grown.of_enter
      have hproof := hF hrule hacyclic h₁ hcourse
      exact (hk _ _ hgrown hproof).expect _ _ (hcheck _ _ _ _ hacyclic hgrown hproof)
    have hwatched := hgo.expect (·.At w) (alarm ρ) hs
    exact ⟨hwatched.ends, hwatched.agrees⟩

end Search

end Monotonicity
