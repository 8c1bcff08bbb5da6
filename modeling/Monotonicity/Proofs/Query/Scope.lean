import Monotonicity.Proofs.Query.Observation

/-!
# Continuations run in the scope of the call

Whenever a call of the solver hands a proof on, the hypotheses and the goals in progress are those at
the entry of the call, and what was bound and put off by then still is. Hypotheses that a goal was
proved under are not in scope for what comes after it, and they are in scope again when another proof
is asked for. The test at each call of the solver under observation says the first, and the second
is that it keeps the scope by hand without a difference. For a goal that is proved under further
hypotheses the prover itself is attended to: they are in scope when it is called, and whenever it gets
back to work (`attended`).
-/

namespace Monotonicity

open Search

/-- At `t` the search goes on in the scope that it had at `s`, and nothing that was there is taken
back. -/
structure State.Continued (s t : State) : Prop where
  hyps : t.hyps = s.hyps
  active : t.active = s.active
  depth : t.depth = s.depth
  bindings : ∀ i v, s.subst.get? i = some v → t.subst.get? i = some v
  trail : s.subst.toList <+: t.subst.toList
  delayed : s.delayed <+: t.delayed

theorem State.Grown.continued {s t : State} (h : s.Grown t) (hs : s.subst.Acyclic) :
    s.Continued t where
  hyps := h.hyps
  active := h.active
  depth := h.depth
  bindings _ _ hi := Subst.get?_of_le (h.acyclic hs).nodup h.subst hi
  trail := List.reverse_prefix.2 h.subst
  delayed := h.delayed

/-- A proof is handed on in the scope of the call. -/
def continuing : Handover := fun s _ _ t => s.Continued t

/-- A continuation that leaves its scope behind as it found it if it does not accept a proof, and
takes nothing back. -/
def Orderly {ρ : Type} (k : Proof → Search ρ) : Prop :=
  ∀ p s why t, (k p).run s = .failure why t → s.Grown t

theorem Orderly.yields {ρ : Type} {k : Proof → Search ρ} (hk : Orderly k) (p : Proof) (s : State) :
    (k p).Yields s fun _ _ => True := by
  unfold Yields Ends
  cases h : (k p).run s with
  | success a t => trivial
  | failure why t => exact hk p s why t h
  | overflow l => trivial

open scoped Classical in
/-- Runs a search, and raises the alarm where it fails in a state without the property. -/
noncomputable def returning {α : Type} (ok : State → Prop) (alarm m : Search α) : Search α where
  run s := match m.run s with
    | .failure why t => if ok t then .failure why t else alarm.run t
    | o => o
  trace s := m.trace s

/-- The prover with two tests for the hypotheses in scope: when it is called, and whenever its
continuation has refused a proof. -/
noncomputable def attended (hyps : List Hypothesis) (alarm : (ρ : Type) → Search ρ)
    (prove : Prover) : Prover :=
  fun ρ goal k => expect (·.hyps = hyps) (alarm ρ)
    (prove ρ goal fun p => returning (·.hyps = hyps) (alarm ρ) (k p))

theorem returning_run {α : Type} {ok : State → Prop} {alarm m : Search α} {s : State}
    (h : ∀ why t, m.run s = .failure why t → ok t) : (returning ok alarm m).run s = m.run s := by
  unfold returning
  dsimp only
  split
  · next why t hrun => rw [hrun, if_pos (h why t hrun)]
  · rfl

section

variable {T : Theory} {ρ : Type} {goal : Goal} {k : Proof → Search ρ} {s : State}

/-- Hypotheses that were withdrawn for a continuation are in scope again if it refuses. -/
theorem hyps_of_withdrawing {further : List Hypothesis} {p : Proof} {t u : State} {why : Failure}
    (hk : Orderly k) (ht : t.hyps = s.hyps ++ further)
    (hrun : (withdrawing s.hyps.length (k p)).run t = .failure why u) :
    u.hyps = s.hyps ++ further := by
  unfold withdrawing Search.within at hrun
  cases h : (k p).run (t.withdraw s.hyps.length) with
  | success a v => simp [h, Outcome.mapState] at hrun
  | overflow l => simp [h, Outcome.mapState] at hrun
  | failure why' v =>
    have hgrown := hk p _ why' v h
    simp only [h, Outcome.mapState, Outcome.failure.injEq] at hrun
    obtain ⟨-, rfl⟩ := hrun
    simp [State.withdraw, State.assume, hgrown.hyps, ht]

theorem Theory.Library.paired_continuing (h : T.Library) (alarm : (ρ : Type) → Search ρ)
    (room : Nat) (w : Place) :
    Paired T T.limits.fuel (fun _ _ _ _ => True) w (solve T room)
      (solveWatched T continuing alarm room w) :=
  h.paired closed_true (fun _ _ _ _ hs ht _ => ht.continued hs) alarm room w

theorem bare_solveWatched (h : T.Library) (alarm : (ρ : Type) → Search ρ) (room : Nat)
    (hk : Orderly k) (hs : s.subst.Acyclic) :
    ((solveWatched T continuing alarm room s.place ρ goal k).run s).bare =
      ((solve T room ρ goal k).run s).bare := by
  have hfollows : Follows T T.limits.fuel (solve T room ρ goal k)
      (solveWatched T continuing alarm room s.place ρ goal k) s s.Grown fun _ _ => True :=
    h.paired_continuing alarm room s.place s.at_place hs fun p t ht _ =>
      Follows.under_self ht.hyps (.self (hk.yields p t))
  exact hfollows.bare_eq

theorem bare_proveAssuming (h : T.Library) (alarm : (ρ : Type) → Search ρ) (room : Nat)
    (further : List Hypothesis) (hk : Orderly k) (hs : s.subst.Acyclic) :
    ((proveAssuming (solveWatched T continuing alarm room s.place) further goal fun p =>
        expect s.Continued (alarm ρ) (k p)).run s).bare =
      ((proveAssuming (solve T room) further goal k).run s).bare := by
  have hfollows : Follows T T.limits.fuel (proveAssuming (solve T room) further goal k)
      (proveAssuming (solveWatched T continuing alarm room s.place) further goal fun p =>
        expect s.Continued (alarm ρ) (k p)) s s.Grown fun _ _ => True :=
    (h.paired_continuing alarm room s.place).assuming rfl hs fun p t ht _ =>
      Follows.expect _ _ (ht.of_assume.continued hs) (.self (hk.yields p _))
  exact hfollows.bare_eq

theorem withdrawing_yields {further : List Hypothesis} {t : State} (hk : Orderly k) (p : Proof)
    (ht : (s.assume further).Grown t) :
    (withdrawing s.hyps.length (k p)).Yields t fun _ _ => True :=
  Ends.within (·.withdraw s.hyps.length) _
    ((hk.yields p _).mono (fun _ hu => ht.assume_drop hu) fun _ _ => id)

/-- The test for having the hypotheses back is passed wherever a proof is handed on. -/
theorem returning_withdrawing {further : List Hypothesis} {t : State} {alarm : Search ρ}
    (hk : Orderly k) (p : Proof) (ht : (s.assume further).Grown t) :
    (returning (·.hyps = s.hyps ++ further) alarm (withdrawing s.hyps.length (k p))).run t =
      (withdrawing s.hyps.length (k p)).run t :=
  returning_run fun _ _ hrun => hyps_of_withdrawing hk ht.hyps hrun

theorem bare_attended (h : T.Library) (alarm : (ρ : Type) → Search ρ) (room : Nat)
    (further : List Hypothesis) (hk : Orderly k) (hs : s.subst.Acyclic) :
    ((proveAssuming (attended (s.hyps ++ further) alarm (solve T room)) further goal k).run
        s).bare =
      ((proveAssuming (solve T room) further goal k).run s).bare := by
  let inner := s.assume further
  let plain : Proof → Search ρ := fun p => withdrawing s.hyps.length (k p)
  let tested : Proof → Search ρ := fun p => returning (·.hyps = s.hyps ++ further) (alarm ρ) (plain p)
  let watched := solveWatched T continuing alarm room inner.place
  have hpaired := h.paired_continuing alarm room inner.place
  have htested (p : Proof) {t : State} (ht : inner.Grown t) : (tested p).run t = (plain p).run t :=
    returning_withdrawing hk p ht
  -- the solver under observation ends as the solver does with either continuation
  have hplain : Follows T T.limits.fuel (solve T room ρ goal plain) (watched ρ goal tested) inner
      inner.Grown fun _ _ => True :=
    hpaired inner.at_place hs fun p t ht _ => Follows.under_self ht.hyps
      ⟨withdrawing_yields hk p ht, htested p ht ▸ .refl _⟩
  have hboth : Follows T T.limits.fuel (solve T room ρ goal tested) (watched ρ goal tested) inner
      inner.Grown fun _ _ => True :=
    hpaired inner.at_place hs fun p t ht _ => Follows.under_self ht.hyps (.self (by
      unfold Ends
      rw [htested p ht]
      exact withdrawing_yields hk p ht))
  have hsame : ((solve T room ρ goal tested).run inner).bare =
      ((solve T room ρ goal plain).run inner).bare := by
    rw [← hboth.bare_eq, hplain.bare_eq]
  have hinner : Follows T T.limits.fuel (solve T room ρ goal plain)
      (attended (s.hyps ++ further) alarm (solve T room) ρ goal plain) inner inner.Grown
      fun _ _ => True :=
    Follows.expect _ _ rfl ⟨hplain.ends, .inl hsame⟩
  have houter : Follows T T.limits.fuel (proveAssuming (solve T room) further goal k)
      (proveAssuming (attended (s.hyps ++ further) alarm (solve T room)) further goal k) s s.Grown
      fun _ _ => True :=
    Follows.hyps (Follows.within (fun _ => rfl) (hinner.mono fun _ hu => hu.of_assume))
  exact houter.bare_eq

end

namespace Engine

variable {E : Engine}

/-- No test of the solver under observation ever fails, in any call of any run, and keeping the
scope by hand makes no difference: whatever the alarm, the solver ends as it does without. The same
holds of a goal that `solve_assuming` proves under further hypotheses, whose continuation is tested
for the scope outside of them. The prover is called with them in scope, and where the continuation
refuses a proof it gets them back. -/
theorem continuations_run_in_scope (hE : E.theory.Library) (alarm : (ρ : Type) → Search ρ) :
    (∀ (room : Nat) (ρ : Type) (goal : Goal) (k : Proof → Search ρ) (s : State), Orderly k →
      s.subst.Acyclic →
      ((solveWatched E.theory continuing alarm room s.place ρ goal k).run s).bare =
        ((Search.solve E.theory room ρ goal k).run s).bare) ∧
    (∀ (room : Nat) (ρ : Type) (further : List Hypothesis) (goal : Goal) (k : Proof → Search ρ)
      (s : State), Orderly k → s.subst.Acyclic →
      ((proveAssuming (solveWatched E.theory continuing alarm room s.place) further goal fun p =>
          expect s.Continued (alarm ρ) (k p)).run s).bare =
        ((proveAssuming (Search.solve E.theory room) further goal k).run s).bare ∧
      ((proveAssuming (attended (s.hyps ++ further) alarm (Search.solve E.theory room)) further goal
          k).run s).bare =
        ((proveAssuming (Search.solve E.theory room) further goal k).run s).bare ∧
      ∀ p t why u, t.hyps = s.hyps ++ further →
        (withdrawing s.hyps.length (k p)).run t = .failure why u → u.hyps = s.hyps ++ further) ∧
    (∀ goal, E.solveBy (E.observed continuing alarm) goal = E.solve goal) ∧
    ∀ lifted edge c,
      E.transportBy (E.observed continuing alarm) lifted edge c = E.transport lifted edge c := by
  have hcheck : ∀ s (goal : Goal) (p : Proof) t, s.subst.Acyclic → s.Grown t → True →
      continuing s goal p t := fun _ _ _ _ hs ht _ => ht.continued hs
  refine ⟨?_, ?_, ?_, ?_⟩
  · intro room ρ goal k s hk hs
    exact bare_solveWatched hE alarm room hk hs
  · intro room ρ further goal k s hk hs
    refine ⟨bare_proveAssuming hE alarm room further hk hs, bare_attended hE alarm room further hk hs,
      fun p t why u ht hrun => ?_⟩
    exact hyps_of_withdrawing hk ht hrun
  · exact fun goal => solveBy_observed hE closed_true hcheck goal
  · exact fun lifted edge c => transportBy_observed hE closed_true hcheck lifted edge c

/-- That `f` is monotone is proved under a hypothesis, and no alarm is raised. -/
theorem withMonotone_in_scope :
    ∃ sol, (withMonotone.solveBy (withMonotone.observed continuing fun _ => .fail .openWitness)
        (.related (.arrow (.const "le") (.const "le")) (.const "f") (.const "f"))).1.result =
      .ok sol ∧ sol.isSolved = true := by
  have hscope := (continuations_run_in_scope (E := withMonotone) (library_standard {})
    fun _ => .fail .openWitness).2.2.1
  rw [hscope]
  have hsolved : (withMonotone.solve (.related (.arrow (.const "le") (.const "le")) (.const "f")
      (.const "f"))).1.result.toOption.any Solution.isSolved = true := by
    decide +kernel
  exact exists_ok_of_any hsolved

end Engine

end Monotonicity
