import Monotonicity.Proofs.Apart.Trace
import Monotonicity.Proofs.Search.Watch

/-!
# Searches that keep placeholders apart

A search keeps placeholders apart if from a state that is apart it goes through such states only,
and gives out placeholders without ever giving one back. A search that does so can be put under
tests: where a test for this property stands, it is passed, so that the search with the tests ends
as the search without them does. Both are said at once, of a search and of one with tests in it.

There is one rule here for each way of making searches. A prover is tested when it takes up a goal
and when it hands on a proof.
-/

namespace Monotonicity

variable {α β ρ : Type} {s t : State} {goal : Goal}

namespace Search

variable {m m' : Search α} {P Q : α → State → Prop} {R : β → State → Prop}

/-- From `s` to `t` the block of `n` placeholders from `first` on was set aside, all of which have
indices. -/
structure SetsAside (s : State) (n first : Nat) (t : State) : Prop where
  first_eq : first = s.ledger.nextVar
  next : t.ledger.nextVar = first + n
  index : first + n < indexBound

/-- From `s`, the search `m` comes to states only that are apart, and gives values with `Q`; `m'`
ends as it does. -/
structure KeepsApart (m m' : Search α) (s : State) (Q : α → State → Prop := fun _ _ => True) :
    Prop where
  agrees : m'.run s = m.run s
  ends : m.Ends s State.Apart fun a t => t.Apart ∧ Q a t
  rising : Rising s.ledger.nextVar (m.trace s) (m.run s).ledger.nextVar
  events : ∀ e ∈ m.trace s, e.Apart

/-- The state that is left is apart. -/
theorem apart_of_mem_events {e : Event} (h : m.Ends s State.Apart fun a t => t.Apart ∧ Q a t)
    (he : e ∈ (m.run s).events) : e.Apart := by
  unfold Ends at h
  cases hrun : m.run s with
  | success a t =>
    rw [hrun] at h he
    obtain rfl := List.mem_singleton.1 he
    exact h.1
  | failure why t =>
    rw [hrun] at h he
    obtain rfl := List.mem_singleton.1 he
    exact h
  | overflow l =>
    rw [hrun] at he
    cases he

namespace KeepsApart

theorem le (hm : KeepsApart m m' s Q) : s.ledger.nextVar ≤ (m.run s).ledger.nextVar :=
  hm.rising.le

theorem of_success (hm : KeepsApart m m' s Q) {a : α} (hrun : m.run s = .success a t) :
    s.Leads t ∧ Q a t := by
  have hle := hm.le
  rw [hrun] at hle
  have hend := hm.ends.of_success hrun
  exact ⟨⟨hle, hend.1⟩, hend.2⟩

theorem of_failure (hm : KeepsApart m m' s Q) {why : Failure} (hrun : m.run s = .failure why t) :
    s.Leads t := by
  have hle := hm.le
  rw [hrun] at hle
  exact ⟨hle, hm.ends.of_failure hrun⟩

/-- All states of the run come later. -/
theorem leads_of_mem (hm : KeepsApart m m' s Q) (h : .state t ∈ m.trace s) : s.Leads t :=
  ⟨hm.rising.le_first h, hm.events _ h⟩

theorem mono (hm : KeepsApart m m' s P) (hPQ : ∀ a t, s.Leads t → P a t → Q a t) :
    KeepsApart m m' s Q := by
  refine ⟨hm.agrees, ?_, hm.rising, hm.events⟩
  cases hrun : m.run s with
  | success a t =>
    have hend := hm.of_success hrun
    simpa only [Ends, hrun] using And.intro hend.1.apart (hPQ a t hend.1 hend.2)
  | failure why t => simpa only [Ends, hrun] using (hm.of_failure hrun).apart
  | overflow l => simp only [Ends, hrun]

/-- A search goes on as another one does from a later state. -/
theorem after {n n' : Search β} {h : List Event} (hn : KeepsApart n n' t R) {m m' : Search β}
    (hrun : m.run s = n.run t) (hrun' : m'.run s = n'.run t) (htrace : m.trace s = h ++ n.trace t)
    (hrise : Rising s.ledger.nextVar h t.ledger.nextVar) (hapart : ∀ e ∈ h, e.Apart) :
    KeepsApart m m' s R where
  agrees := by rw [hrun', hn.agrees, hrun]
  ends := by simpa only [Ends, hrun] using hn.ends
  rising := by
    rw [hrun, htrace]
    exact hrise.append hn.rising
  events := by
    rw [htrace]
    exact fun e he => (List.mem_append.1 he).elim (hapart e) (hn.events e)

/-- A search ends where its first part does. -/
theorem stop (hm : KeepsApart m m' s P) {n n' : Search β} {o : Outcome β} (hrun : n.run s = o)
    (hrun' : n'.run s = o) (hends : n.Ends s State.Apart fun a t => t.Apart ∧ R a t)
    (hledger : o.ledger = (m.run s).ledger) (htrace : n.trace s = m.trace s) :
    KeepsApart n n' s R where
  agrees := hrun'.trans hrun.symm
  ends := hends
  rising := by
    rw [hrun, hledger, htrace]
    exact hm.rising
  events := by
    rw [htrace]
    exact hm.events

theorem bind {f f' : α → Search β} (hm : KeepsApart m m' s P)
    (hf : ∀ a t, s.Leads t → P a t → KeepsApart (f a) (f' a) t R) :
    KeepsApart (m >>= f) (m' >>= f') s R := by
  have hbind := run_bind m' f' s
  rw [hm.agrees] at hbind
  cases hrun : m.run s with
  | success a t =>
    obtain ⟨hlead, hP⟩ := hm.of_success hrun
    have hrise := hm.rising
    rw [hrun] at hrise hbind
    refine (hf a t hlead hP).after ?_ hbind ?_ hrise hm.events
    · rw [run_bind, hrun]
    · rw [trace_bind, hrun]
  | failure why t =>
    rw [hrun] at hbind
    have hstop : (m >>= f).run s = .failure why t := by rw [run_bind, hrun]
    refine hm.stop hstop hbind ?_ (by rw [hrun]; rfl) (by simp [trace_bind, hrun])
    simpa only [Ends, hstop] using (hm.of_failure hrun).apart
  | overflow l =>
    rw [hrun] at hbind
    have hstop : (m >>= f).run s = .overflow l := by rw [run_bind, hrun]
    refine hm.stop hstop hbind ?_ (by rw [hrun]; rfl) (by simp [trace_bind, hrun])
    simp only [Ends, hstop]

theorem recover {handler handler' : Failure → Search α} (hm : KeepsApart m m' s Q)
    (hhandler : ∀ why t, s.Leads t → KeepsApart (handler why) (handler' why) t Q) :
    KeepsApart (m.recover handler) (m'.recover handler') s Q := by
  have hrecover := run_recover m' handler' s
  rw [hm.agrees] at hrecover
  cases hrun : m.run s with
  | failure why t =>
    have hrise := hm.rising
    rw [hrun] at hrise hrecover
    refine (hhandler why t (hm.of_failure hrun)).after ?_ hrecover ?_ hrise hm.events
    · rw [run_recover, hrun]
    · rw [trace_recover, hrun]
  | success a t =>
    rw [hrun] at hrecover
    have hstop : (m.recover handler).run s = .success a t := by rw [run_recover, hrun]
    refine hm.stop hstop hrecover ?_ (by rw [hrun]) (by simp [trace_recover, hrun])
    have hend := hm.of_success hrun
    simpa only [Ends, hstop] using And.intro hend.1.apart hend.2
  | overflow l =>
    rw [hrun] at hrecover
    have hstop : (m.recover handler).run s = .overflow l := by rw [run_recover, hrun]
    refine hm.stop hstop hrecover ?_ (by rw [hrun]) (by simp [trace_recover, hrun])
    simp only [Ends, hstop]

/-- What is taken back is in the trace, and the state after that follows it. -/
theorem attempt (hm : KeepsApart m m' s Q) : KeepsApart (attempt m) (Search.attempt m') s Q := by
  have hagrees : (Search.attempt m').run s = (Search.attempt m).run s := by
    simp only [Search.attempt, hm.agrees]
  have hrise := hm.rising
  cases hrun : m.run s with
  | success a t =>
    have hrun' : (Search.attempt m).run s = .success a t := by simp only [Search.attempt, hrun]
    have hend := hm.of_success hrun
    refine hm.stop hrun' (hagrees.trans hrun') ?_ (by rw [hrun]) (by simp [Search.attempt, hrun])
    simpa only [Ends, hrun'] using And.intro hend.1.apart hend.2
  | failure why t =>
    have hrun' : (Search.attempt m).run s = .failure why (t.undo s.mark) := by
      simp only [Search.attempt, hrun]
    have htrace : (Search.attempt m).trace s = m.trace s ++ [.state (t.undo s.mark)] := by
      simp only [Search.attempt, hrun]
    have hundo := (hm.of_failure hrun).apart.undo s.mark
    refine ⟨hagrees, by simpa only [Ends, hrun'] using hundo, ?_, ?_⟩
    · rw [hrun] at hrise
      rw [hrun', htrace]
      exact hrise.append ⟨Nat.le_refl _, Nat.le_refl _⟩
    · rw [htrace]
      exact List.forall_mem_append.2 ⟨hm.events, List.forall_mem_singleton.2 hundo⟩
  | overflow l =>
    have hrun' : (Search.attempt m).run s = .overflow l := by simp only [Search.attempt, hrun]
    refine hm.stop hrun' (hagrees.trans hrun') ?_ (by rw [hrun]) (by simp [Search.attempt, hrun])
    simp only [Ends, hrun']

/-- A search in a changed state, where the changes leave the ledger alone. -/
theorem within {before after : State → State} (hm : KeepsApart m m' (before s))
    (hs : (before s).Apart) (hbefore : (before s).ledger = s.ledger)
    (hafter : ∀ t, (after t).ledger = t.ledger) (hback : ∀ t, s.Leads t → (after t).Apart) :
    KeepsApart (within before after m) (Search.within before after m') s := by
  have hledger : ((m.run (before s)).mapState after).ledger = (m.run (before s)).ledger :=
    Outcome.ledger_mapState after hafter _
  have hleads : ∀ t, (before s).Leads t → s.Leads t := fun t ht => ⟨hbefore ▸ ht.le, ht.apart⟩
  have hend : (Search.within before after m).Ends s State.Apart fun _ t => t.Apart ∧ True := by
    cases hrun : m.run (before s) with
    | success a t =>
      have ht := hback t (hleads t (hm.of_success hrun).1)
      simpa only [Ends, Search.within, hrun, Outcome.mapState] using And.intro ht trivial
    | failure why t =>
      have ht := hback t (hleads t (hm.of_failure hrun))
      simpa only [Ends, Search.within, hrun, Outcome.mapState] using ht
    | overflow l => simp only [Ends, Search.within, hrun, Outcome.mapState]
  refine ⟨by simp only [Search.within, hm.agrees], hend, ⟨hbefore ▸ Nat.le_refl _, ?_⟩, ?_⟩
  · refine hm.rising.append ?_
    rw [← hledger]
    exact Outcome.rising_events _
  · simp only [Search.within, List.mem_cons, List.mem_append]
    rintro e (rfl | he | he)
    · exact hs
    · exact hm.events e he
    · exact apart_of_mem_events hend he

/-! ## Primitive searches -/

/-- A search that leaves the state alone. -/
theorem quiet (hend : m.Ends s State.Apart fun a t => t.Apart ∧ Q a t)
    (hledger : (m.run s).ledger = s.ledger) (htrace : m.trace s = []) : KeepsApart m m s Q := by
  refine ⟨rfl, hend, ?_, ?_⟩
  · rw [hledger, htrace]
    exact Nat.le_refl _
  · simp [htrace]

/-- A search that changes the state once. -/
theorem primitive (hend : m.Ends s State.Apart fun a t => t.Apart ∧ Q a t)
    (hle : s.ledger.nextVar ≤ (m.run s).ledger.nextVar) (htrace : m.trace s = (m.run s).events) :
    KeepsApart m m s Q := by
  refine ⟨rfl, hend, ?_, fun e he => apart_of_mem_events hend (htrace ▸ he)⟩
  rw [htrace]
  exact Rising.append (h := []) hle (Outcome.rising_events _)

theorem pure {a : α} (hs : s.Apart) (hQ : Q a s) : KeepsApart (pure a) (Pure.pure a) s Q :=
  quiet ⟨hs, hQ⟩ rfl rfl

theorem fail {why : Failure} (hs : s.Apart) : KeepsApart (fail why) (Search.fail why) s Q :=
  quiet hs rfl rfl

/-- A search that looks at the state first. -/
theorem state {k k' : State → Search β} (hk : KeepsApart (k s) (k' s) s R) :
    KeepsApart (state >>= k) (Search.state >>= k') s R :=
  ⟨hk.agrees, hk.ends, hk.rising, hk.events⟩

theorem subst {k k' : Subst → Search β} (hk : KeepsApart (k s.subst) (k' s.subst) s R) :
    KeepsApart (subst >>= k) (Search.subst >>= k') s R :=
  state (k := fun s => k s.subst) hk

theorem hyps {k k' : List Hypothesis → Search β} (hk : KeepsApart (k s.hyps) (k' s.hyps) s R) :
    KeepsApart (hyps >>= k) (Search.hyps >>= k') s R :=
  state (k := fun s => k s.hyps) hk

theorem active {k k' : List Goal → Search β} (hk : KeepsApart (k s.active) (k' s.active) s R) :
    KeepsApart (active >>= k) (Search.active >>= k') s R :=
  state (k := fun s => k s.active) hk

theorem depth {k k' : Nat → Search β} (hk : KeepsApart (k s.depth) (k' s.depth) s R) :
    KeepsApart (depth >>= k) (Search.depth >>= k') s R :=
  state (k := fun s => k s.depth) hk

theorem ledger {k k' : Ledger → Search β} (hk : KeepsApart (k s.ledger) (k' s.ledger) s R) :
    KeepsApart (ledger >>= k) (Search.ledger >>= k') s R :=
  state (k := fun s => k s.ledger) hk

theorem noRule (hs : s.Apart) : KeepsApart (noRule goal) (Search.noRule goal) s Q :=
  quiet hs rfl rfl

theorem noCandidate (hs : s.Apart) : KeepsApart (noCandidate goal) (Search.noCandidate goal) s Q :=
  quiet hs rfl rfl

theorem gap (hs : s.Apart) : KeepsApart (gap goal) (Search.gap goal) s Q := quiet hs rfl rfl

theorem exhausted (hs : s.Apart) : KeepsApart exhausted Search.exhausted s Q := quiet hs rfl rfl

theorem enterLedger {f : Ledger → Ledger} (hs : s.Apart)
    (hle : s.ledger.nextVar ≤ (f s.ledger).nextVar) :
    KeepsApart (enterLedger f) (Search.enterLedger f) s :=
  primitive ⟨(hs.advance hle).apart, trivial⟩ hle rfl

theorem count {f : Stats → Stats} (hs : s.Apart) : KeepsApart (count f) (Search.count f) s :=
  enterLedger hs (Nat.le_refl _)

theorem assign {a b : Term} (hs : s.Apart) (ha : a.Over s.used) (hb : b.Over s.used) :
    KeepsApart (assign a b) (Search.assign a b) s := by
  cases h : s.subst.unify a b with
  | none =>
    refine quiet ?_ (by simp only [Search.assign, h]; rfl) (by simp only [Search.assign, h])
    simpa only [Ends, Search.assign, h] using And.intro hs trivial
  | some τ =>
    have hτ : ({ s with subst := τ } : State).Apart :=
      ⟨(Subst.unify_gains h).acyclic hs.acyclic,
        { hs.only with subst := hs.only.subst.unify hs.acyclic ha hb h }⟩
    refine primitive ?_ (by simp only [Search.assign, h]; exact Nat.le_refl _)
      (by simp only [Search.assign, h]; rfl)
    simpa only [Ends, Search.assign, h] using And.intro hτ trivial

theorem unify {a b : Term} (hs : s.Apart) (ha : a.Over s.used) (hb : b.Over s.used) :
    KeepsApart (unify a b) (Search.unify a b) s :=
  (count hs).bind fun _ _ ht _ => assign ht.apart (ha.mono ht.used) (hb.mono ht.used)

/-- A choice by whether two terms can be made equal. -/
theorem ifUnify {a b : Term} {k k' n n' : Search β} (hs : s.Apart) (ha : a.Over s.used)
    (hb : b.Over s.used) (hk : ∀ t, s.Leads t → KeepsApart k k' t R)
    (hn : ∀ t, s.Leads t → KeepsApart n n' t R) :
    KeepsApart (do if ← Search.unify a b then k else n)
      (do if ← Search.unify a b then k' else n') s R := by
  refine (unify hs ha hb).bind fun same t ht _ => ?_
  cases same
  · exact hn t ht
  · exact hk t ht

theorem append {p : Pending} (hs : s.Apart) (hp : p.Over s.used) :
    KeepsApart (append p) (Search.append p) s := by
  refine primitive ⟨⟨hs.acyclic, { hs.only with delayed := fun q hq => ?_ }⟩, trivial⟩
    (Nat.le_refl _) rfl
  rcases List.mem_append.1 hq with hq | hq
  · exact hs.only.delayed q hq
  · obtain rfl := List.mem_singleton.1 hq
    exact hp

theorem reserve {n : Nat} (hs : s.Apart) :
    KeepsApart (reserve n) (Search.reserve n) s (SetsAside s n) := by
  let l : Ledger := { s.ledger with nextVar := s.ledger.nextVar + n }
  by_cases h : s.ledger.nextVar + n < indexBound
  · have hrun : (Search.reserve n).run s = .success s.ledger.nextVar { s with ledger := l } := by
      simp [Search.reserve, h, l]
    have htrace : (Search.reserve n).trace s = [.reserve s n, .state { s with ledger := l }] := by
      simp [Search.reserve, h, l]
    have hnext : ({ s with ledger := l } : State).Apart :=
      (hs.advance (Nat.le_add_right _ _)).apart
    refine ⟨rfl, ?_, ?_, ?_⟩
    · simpa only [Ends, hrun] using And.intro hnext ⟨rfl, rfl, h⟩
    · rw [hrun, htrace]
      exact ⟨Nat.le_refl _, Nat.le_refl _, Nat.le_refl _⟩
    · rw [htrace]
      exact List.forall_mem_cons.2 ⟨⟨hs, h⟩, List.forall_mem_singleton.2 hnext⟩
  · have hrun : (Search.reserve n).run s = .overflow s.ledger := by simp [Search.reserve, h]
    refine quiet ?_ (by rw [hrun]; rfl) (by simp [Search.reserve, h])
    simp only [Ends, hrun]

theorem freshVar (hs : s.Apart) :
    KeepsApart freshVar Search.freshVar s fun u t => u.Over t.used := by
  refine (reserve hs).bind fun first t ht hfirst => pure ht.apart ?_
  rw [Term.over_var, State.used, hfirst.next]
  exact Nat.lt_succ_self first

theorem freshVars {n : Nat} (hs : s.Apart) :
    KeepsApart (freshVars n) (Search.freshVars n) s fun us t => ∀ u ∈ us, u.Over t.used := by
  induction n generalizing s with
  | zero => exact pure hs (by simp)
  | succ n ih =>
    refine (freshVar hs).bind fun u t ht hu => (ih ht.apart).bind fun us v hv hus => ?_
    exact pure hv.apart (List.forall_mem_cons.2 ⟨hu.mono hv.used, hus⟩)

theorem freshConst {hint : String} (hs : s.Apart) :
    KeepsApart (freshConst hint) (Search.freshConst hint) s fun u _ => ∀ V, u.Over V := by
  refine ledger ?_
  dsimp only [Symbols.mint]
  exact (enterLedger hs (Nat.le_refl _)).bind fun _ t ht _ => pure ht.apart (by simp [Term.const])

theorem freshConsts {hint : String} {n : Nat} (hs : s.Apart) :
    KeepsApart (freshConsts hint n) (Search.freshConsts hint n) s fun us _ =>
      ∀ u ∈ us, ∀ V, u.Over V := by
  induction n generalizing s with
  | zero => exact pure hs (by simp)
  | succ n ih =>
    refine (freshConst hs).bind fun u t ht hu => (ih ht.apart).bind fun us v hv hus => ?_
    exact pure hv.apart (List.forall_mem_cons.2 ⟨hu, hus⟩)

theorem defer (hs : s.Apart) (hgoal : goal.Over s.used) :
    KeepsApart (defer goal) (Search.defer goal) s fun p t => p.Over t.used := by
  refine (count hs).bind fun _ t ht _ => subst (hyps ?_)
  have hresolved := (hgoal.mono ht.used).resolve ht.apart.only.subst.within
  refine (append ht.apart ⟨hresolved, ht.apart.only.hyps⟩).bind fun i u hu _ => ?_
  exact pure hu.apart (by simp [Proof.Over, Proof.witness?])

/-! ## Alternatives -/

/-- A value that is needed is there, or the search fails. -/
theorem require {value : Option α} {otherwise : Search α} {k k' : α → Search β}
    (hother : KeepsApart otherwise otherwise s fun _ _ => False)
    (hk : ∀ a, value = some a → KeepsApart (k a) (k' a) s R) :
    KeepsApart (require value otherwise >>= k) (Search.require value otherwise >>= k') s R := by
  cases value with
  | none => exact hother.bind fun _ _ _ h => h.elim
  | some a => exact hk a rfl

theorem failBest {best : Option Failure} (hs : s.Apart) (hm : KeepsApart m m' s Q) :
    KeepsApart (failBest m best) (Search.failBest m' best) s Q := by
  cases best with
  | none => exact hm
  | some why => exact fail hs

theorem ite {p : Prop} [Decidable p] {n n' : Search α} (hm : p → KeepsApart m m' s Q)
    (hn : ¬ p → KeepsApart n n' s Q) :
    KeepsApart (if p then m else n) (if p then m' else n') s Q := by
  by_cases h : p
  · simpa only [if_pos h] using hm h
  · simpa only [if_neg h] using hn h

theorem unlessSpent {T : Theory} {why : Failure} (hs : s.Apart) (hm : KeepsApart m m' s Q) :
    KeepsApart (unlessSpent T why m) (Search.unlessSpent T why m') s Q :=
  ledger (ite (fun _ => fail hs) fun _ => hm)

theorem tryEach {T : Theory} {run run' : α → Search ρ}
    {otherwise otherwise' : Option Failure → Search ρ} {alternatives : List α}
    {best : Option Failure} (hs : s.Leads t)
    (hrun : ∀ a ∈ alternatives, ∀ t, s.Leads t → KeepsApart (run a) (run' a) t)
    (hother : ∀ best t, s.Leads t → KeepsApart (otherwise best) (otherwise' best) t) :
    KeepsApart (tryEach T run otherwise alternatives best)
      (Search.tryEach T run' otherwise' alternatives best) t := by
  induction alternatives generalizing t best with
  | nil => exact hother best t hs
  | cons a alternatives ih =>
    rw [List.forall_mem_cons] at hrun
    refine (hrun.1 t hs).attempt.recover fun why u hu => unlessSpent hu.apart ?_
    exact ih (hs.trans hu) hrun.2

/-! ## Scopes -/

theorem inside (hs : s.Apart) (hgoal : goal.Over s.used)
    (hm : ∀ t : State, s.Leads (t.enter goal) → KeepsApart m m' (t.enter goal)) :
    KeepsApart (inside goal m) (Search.inside goal m') s := by
  refine depth ((count hs).bind fun _ t ht _ => ?_)
  have henter := ht.apart.enter (hgoal.mono ht.used)
  exact within (hm t ⟨ht.le, henter⟩) henter rfl (fun _ => rfl) fun u hu => hu.apart.leave

theorem outside (hs : s.Apart) (hgoal : goal.Over s.used) (hm : KeepsApart m m' s.leave) :
    KeepsApart (outside goal m) (Search.outside goal m') s :=
  within hm hs.leave rfl (fun _ => rfl) fun _ ht => ht.apart.enter (hgoal.mono ht.used)

theorem withdrawing {n : Nat} (hs : s.Apart) (hm : KeepsApart m m' (s.withdraw n)) :
    KeepsApart (withdrawing n m) (Search.withdrawing n m') s := by
  refine state (k := fun s => Search.within (·.withdraw n)
    (fun t => (t.withdraw n).assume (s.hyps.drop n)) m) ?_
  refine within hm (hs.withdraw n) rfl (fun _ => rfl) fun t ht =>
    (ht.apart.withdraw n).assume fun x hx => ?_
  exact (hs.only.hyps x (List.mem_of_mem_drop hx)).mono ht.used

/-- A test that is passed. -/
theorem expect {ok : State → Prop} {alarm : Search α} (hok : ok s) (hm : KeepsApart m m' s Q) :
    KeepsApart m (expect ok alarm m') s Q :=
  ⟨(expect_run hok).trans hm.agrees, hm.ends, hm.rising, hm.events⟩

end KeepsApart

end Search

/-! ## Provers -/

/-- The prover keeps placeholders apart if it is asked for a goal whose placeholders have been given
out, and then hands on proofs with names of which the same is true. The second prover is the first
one with tests in it. -/
def Prover.KeepsApart (prove prove' : Prover) : Prop :=
  ∀ ⦃ρ : Type⦄ ⦃goal : Goal⦄ ⦃k k' : Proof → Search ρ⦄ ⦃s : State⦄, s.Apart → goal.Over s.used →
    (∀ p t, s.Leads t → p.Over t.used → (k p).KeepsApart (k' p) t) →
    (prove ρ goal k).KeepsApart (prove' ρ goal k') s

namespace Prover.KeepsApart

open Search

variable {prove prove' : Prover} {k k' : Proof → Search ρ}

theorem proveAssuming (hprove : prove.KeepsApart prove') {further : List Hypothesis}
    (hs : s.Apart) (hfurther : ∀ h ∈ further, h.Over s.used) (hgoal : goal.Over s.used)
    (hk : ∀ p t, s.Leads t → p.Over t.used → (k p).KeepsApart (k' p) t) :
    (proveAssuming prove further goal k).KeepsApart (Search.proveAssuming prove' further goal k')
      s := by
  have hassume := hs.assume hfurther
  refine .hyps (.within (hprove hassume hgoal fun p t ht hp => ?_) hassume rfl (fun _ => rfl)
    fun t ht => ht.apart.withdraw _)
  exact .withdrawing ht.apart (hk p _ ⟨ht.le, ht.apart.withdraw _⟩ hp)

theorem proveAll (hprove : prove.KeepsApart prove') {k k' : List Proof → Search ρ}
    {goals : List Goal} {done : List Proof} (hs : s.Apart) (hgoals : ∀ g ∈ goals, g.Over s.used)
    (hdone : ∀ p ∈ done, p.Over s.used)
    (hk : ∀ ps t, s.Leads t → (∀ p ∈ ps, p.Over t.used) → (k ps).KeepsApart (k' ps) t) :
    (proveAll prove k goals done).KeepsApart (Search.proveAll prove' k' goals done) s := by
  induction goals generalizing s done with
  | nil => exact hk done s hs.leads hdone
  | cons goal goals ih =>
    rw [List.forall_mem_cons] at hgoals
    refine hprove hs hgoals.1 fun p t ht hp => ih ht.apart (fun g hg => ?_) ?_ ?_
    · exact (hgoals.2 g hg).mono ht.used
    · exact List.forall_mem_append.2 ⟨fun q hq => (hdone q hq).mono ht.used, by simpa using hp⟩
    · exact fun ps u hu => hk ps u (ht.trans hu)

theorem bridging (hprove : prove.KeepsApart prove') {onFailure : Bool → Failure → Search ρ}
    (hs : s.Apart) (hgoal : goal.Over s.used)
    (hk : ∀ p t, s.Leads t → p.Over t.used → (k p).KeepsApart (k' p) t)
    (hfailure : ∀ crossed why t, s.Leads t →
      (onFailure crossed why).KeepsApart (onFailure crossed why) t) :
    (bridging (prove ρ goal) k onFailure).KeepsApart
      (Search.bridging (prove' ρ goal) k' onFailure) s := by
  have hbegin : beginBridge.KeepsApart beginBridge s :=
    .ledger ((Search.KeepsApart.enterLedger hs (Nat.le_refl _)).bind fun _ _ ht _ =>
      .pure ht.apart trivial)
  refine hbegin.bind fun number t ht _ => .recover (hprove ht.apart (hgoal.mono ht.used)
    fun p u hu hp => ?_) fun why u hu => .ledger ?_
  · refine (Search.KeepsApart.enterLedger hu.apart (Nat.le_refl _)).bind fun _ v hv _ => ?_
    exact hk p v ((ht.trans hu).trans hv) (hp.mono hv.used)
  · refine (Search.KeepsApart.enterLedger hu.apart (Nat.le_refl _)).bind fun _ v hv _ => ?_
    exact hfailure _ why v ((ht.trans hu).trans hv)

end Prover.KeepsApart

end Monotonicity
