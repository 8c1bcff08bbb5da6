import Monotonicity.Proofs.Limit.Blame
import Monotonicity.Proofs.Limit.Crossing
import Monotonicity.Proofs.Limit.Cut
import Monotonicity.Proofs.Query.Depth
import Monotonicity.Proofs.Query.Fuel
import Monotonicity.Proofs.Transport.Coherent

/-!
# Limits met by a transport

A transport puts an obligation off if its search fails. It does not do so if the search says that a
limit was reached: then the transport goes back to an earlier choice, of a proof or of a way across
the edge. If none is left it says that a limit was reached, but it says something else if another way
across the edge is barred, or if the steps run out. That an obligation meets a limit is put as an
alarm that goes off there (`alarmed`); a transport in which it does not is `Quiet`. An obligation
that is put off with steps left was searched to the end: it has no proof, however much room there is.

None of this holds of the inclusion that leads from the edge's relation to the expected one. Whatever
its search has to say is put into the words of a gap. And a search whose steps run out passes on the
cause that a rule gave for its failure, and then an obligation is put off as if it had no proof.
-/

namespace Monotonicity

namespace Search

variable {T : Theory} {ρ α : Type} {prove : Prover} {goals : List Goal} {done : List Proof}
  {k : List Proof → Search ρ} {deep : Prover} {found : (ρ : Type) → Proof → Search ρ}
  {alarm : (ρ : Type) → Search ρ} {room : Nat} {Z : List Event → Prop}

/-! ## What makes the settling of obligations fail -/

/-- The search fails only because a limit was reached. -/
def OnlyLimited (m : Search α) : Prop :=
  ∀ s why t, m.run s = .failure why t → why.isExhausted = true

theorem OnlyLimited.mild {m : Search α} (h : m.OnlyLimited) : m.Mild :=
  fun s why t hrun => Failure.mild_of_isExhausted (h s why t hrun)

/-- Nothing is asked of what stands in for such a search. -/
theorem OnlyLimited.upheld {m : Search α} (h : m.OnlyLimited) (m' : Search α) : Upheld T m m' :=
  .of_stopped h.mild fun s why t hrun => .inl (h s why t hrun)

theorem arrive_onlyLimited {bound : Nat} {p : Plan} (ps : List Proof) :
    (arrive bound p ps).OnlyLimited := by
  intro s why t h
  cases h

/-- An obligation without a proof is put off, so that the others decide. -/
theorem discharge_onlyLimited (hk : ∀ ps, (k ps).OnlyLimited) :
    (discharge prove k goals done).OnlyLimited := by
  induction goals generalizing done with
  | nil => exact hk done
  | cons goal rest ih =>
    intro s why t h
    rw [discharge, run_recover] at h
    split at h
    · next why' u _ =>
      split at h
      · next hwhy =>
        cases h
        exact hwhy
      · rw [run_bind] at h
        split at h
        · exact ih _ why t h
        · next hdefer => exact (Total.defer _ _ _ hdefer).elim
        · cases h
    · cases h
    · cases h

/-! ## Second thoughts -/

/-- The solver with second thoughts about goals on related terms. If one fails with steps left, and
not because a limit was reached, then it is searched for once more. In that search the goals for
which there is no room are left to `deep`, and `found` is done with every proof. The trace is that
of the first search. -/
def rethinking (T : Theory) (deep : Prover) (found : (ρ : Type) → Proof → Search ρ) (room : Nat) :
    Prover := fun ρ goal k =>
  match goal with
  | .subrel _ _ => solve T room ρ goal k
  | .related _ _ _ =>
    { solve T room ρ goal k with
      run := fun s =>
        match (solve T room ρ goal k).run s with
        | .failure why t =>
          if why.isExhausted = true ∨ T.spent t.ledger = true then .failure why t
          else (solveOver T deep room ρ goal (found ρ)).run s
        | o => o }

/-- If what follows a proof fails for want of a limit only, then second thoughts change nothing: a
goal that fails in another way has no proof. -/
theorem rethinking_eq (hT : T.Library) {goal : Goal} {k : Proof → Search ρ}
    (hk : ∀ p, (k p).OnlyLimited) :
    rethinking T deep found room ρ goal k = solve T room ρ goal k := by
  cases goal with
  | subrel lesser greater => rfl
  | related rel left right =>
    refine Search.ext (funext fun s => ?_) rfl
    simp only [rethinking]
    cases hrun : (solve T room ρ (.related rel left right) k).run s with
    | success a t => rfl
    | overflow l => rfl
    | failure why t =>
      dsimp only
      split
      · rfl
      · next hstop =>
        exact (solve_upheld hT.candid deep room fun p => (hk p).upheld (found ρ p)).same s why t hrun
          hstop

theorem discharge_rethinking (hT : T.Library) (hk : ∀ ps, (k ps).OnlyLimited) :
    discharge (rethinking T deep found room) k goals done =
      discharge (solve T room) k goals done := by
  induction goals generalizing done with
  | nil => rfl
  | cons goal rest ih =>
    simp only [discharge, ih]
    rw [rethinking_eq hT fun p => discharge_onlyLimited hk]

/-! ## Alarms -/

/-- The solver with an alarm that goes off if the search for a goal on related terms fails in the
given way. The trace ends where the alarm does go off. -/
def alarmed (T : Theory) (raised : Failure → Ledger → Bool) (alarm : (ρ : Type) → Search ρ)
    (room : Nat) : Prover := fun ρ goal k =>
  match goal with
  | .subrel _ _ => solve T room ρ goal k
  | .related _ _ _ =>
    { solve T room ρ goal k with
      run := fun s =>
        match (solve T room ρ goal k).run s with
        | .failure why t => if raised why t.ledger then (alarm ρ).run s else .failure why t
        | o => o }

/-- A limit was reached. -/
def limited (why : Failure) (_ : Ledger) : Bool := why.isExhausted

/-- A limit was reached, and the steps are used up. -/
def cutShort (T : Theory) (why : Failure) (l : Ledger) : Bool := why.isExhausted && T.spent l

theorem alarmed_unlessCut (hT : T.Library) {goal : Goal} {k k' : Proof → Search ρ}
    (hk : ∀ p, UnlessCut T (k p) (k' p)) :
    UnlessCut T (solve T room ρ goal k) (alarmed T (cutShort T) alarm room ρ goal k') := by
  intro s hcut
  have hsame : (solve T room ρ goal k').run s = (solve T room ρ goal k).run s :=
    solve_passesCuts hT room hk s hcut
  cases goal with
  | subrel lesser greater => exact hsame
  | related rel left right =>
    rw [← hsame] at hcut ⊢
    simp only [alarmed, cutShort, Bool.and_eq_true]
    split
    · next why t hrun =>
      rw [if_neg fun hboth => hcut ⟨why, t, hrun, hboth.1, hboth.2⟩, hrun]
    · rfl

/-- Obligations of which none is cut short are settled in the same way. -/
theorem discharge_alarmed (hT : T.Library) :
    UnlessCut T (discharge (solve T room) k goals done)
      (discharge (alarmed T (cutShort T) alarm room) k goals done) := by
  induction goals generalizing done with
  | nil => exact .refl
  | cons goal rest ih =>
    refine (alarmed_unlessCut hT fun p => ih).attempt.recover
      (fun why => .ite .refl (.bind fun p => ih)) fun why t hwhy hspent => ?_
    rw [if_pos hwhy]
    exact ⟨why, t, rfl, hwhy, hspent⟩

/-! ## The transport -/

theorem transport_rethinking (hT : T.Library) (bound liftedId edgeId : Nat) (lifted edge : Fact)
    (c : Computation) :
    transport T (rethinking T deep found room) bound liftedId edgeId lifted edge c =
      transport T (solve T room) bound liftedId edgeId lifted edge c := by
  simp only [transport, discharge_rethinking hT arrive_onlyLimited]
  rfl

/-! ## From the edge on -/

variable {bound liftedId edgeId : Nat} {lifted edge : Fact} {result : Subst → Option Term}
  {c : Computation} {bridged : Option Proof}

/-- Something stands in the way of a transport. -/
def Obstructed (why : Failure) : Prop := ∃ o, why = .notTransportable o

theorem blocked_obstructed {o : Obstacle} : (blocked o : Search α).Blames Obstructed Z :=
  fun _ => .fail ⟨o, rfl⟩

theorem require_obstructed {value : Option α} {o : Obstacle} :
    (require value (blocked o)).Blames Obstructed Z := by
  cases value with
  | none => exact blocked_obstructed
  | some a => exact fun _ _ _ h => by cases h

theorem fieldObligations_obstructed {relation : Term} {args : List Term}
    {fields : List (FieldRel × Term × Term)} :
    (fieldObligations relation args fields).Blames Obstructed Z := by
  induction fields with
  | nil => exact fun _ _ _ h => by cases h
  | cons field fields ih =>
    exact .bind require_obstructed fun rel => .bind ih fun goals => fun _ _ _ h => by cases h

theorem planned_obstructed {relation : Term} {args : List Term}
    {fields : List (FieldRel × Term × Term)} {made : List Goal → Plan} :
    (fieldObligations relation args fields >>= fun goals => pure (made goals)).Blames Obstructed Z :=
  .bind fieldObligations_obstructed fun _ _ _ _ h => by cases h

theorem derivedSide_obstructed {term left right : Term} :
    (derivedSide term left right).Blames Obstructed Z := by
  refine .after .unify fun ok => ?_
  split
  · exact fun _ _ _ h => by cases h
  · refine .after .unify fun ok => ?_
    split
    · exact fun _ _ _ h => by cases h
    · exact blocked_obstructed

/-- A plan fails for obstacles only. -/
theorem plan_obstructed : (plan T lifted edge result c).Blames Obstructed Z := by
  refine .subst fun σ => .bind require_obstructed fun left => .bind require_obstructed fun right => ?_
  refine .bind derivedSide_obstructed fun derived => .subst fun σ => ?_
  refine .bind require_obstructed fun relation => .subst fun σ => ?_
  split
  · refine .bind require_obstructed fun scheme => .subst fun σ => ?_
    split
    · refine .bind require_obstructed fun pair => .after .freshVars fun unknown => .subst fun σ => ?_
      dsimp only
      split
      · refine .after .unify fun ok => ?_
        split
        · exact .bind blocked_obstructed fun _ => planned_obstructed
        · exact planned_obstructed
      · exact planned_obstructed
    · exact blocked_obstructed
  · exact blocked_obstructed

/-- From the edge on a transport fails for an obstacle, and then it has no obligations, or because a
limit was reached. -/
theorem fromEdge_fails {prove : Prover} (prove' : Prover) {s t : State} {why : Failure}
    (h : (fromEdge T prove bound liftedId edgeId lifted edge result c bridged).run s =
      .failure why t) :
    Obstructed why ∧ (fromEdge T prove' bound liftedId edgeId lifted edge result c bridged).run s =
        .failure why t ∨
      why.isExhausted = true := by
  unfold fromEdge at h ⊢
  rw [run_bind] at h ⊢
  cases hrun : (plan T lifted edge result c).run s with
  | failure why' u =>
    rw [hrun] at h
    cases h
    exact .inl ⟨(plan_obstructed s).cause hrun, rfl⟩
  | overflow l =>
    rw [hrun] at h
    cases h
  | success p u =>
    rw [hrun] at h
    exact .inr (discharge_onlyLimited arrive_onlyLimited u why t h)

theorem fromEdge_grave {prove : Prover} {s t : State} {why : Failure}
    (h : (fromEdge T prove bound liftedId edgeId lifted edge result c bridged).run s =
      .failure why t) : why.Grave := by
  rcases fromEdge_fails prove h with ⟨⟨o, rfl⟩, -⟩ | hwhy
  · simp [Failure.Grave, Failure.specificity]
  · exact Failure.grave_of_isExhausted hwhy

theorem fromEdge_yields (hT : T.Library) (s : State) :
    (fromEdge T (solve T room) bound liftedId edgeId lifted edge result c bridged).Yields s
      fun _ _ => True :=
  plan_gets.yields fun _ _ _ _ => discharge_yields (hT.met_replay room) fun _ _ _ _ => trivial

/-! ## The edge -/

/-- The second search does what the first one does, from every state from which that does not end in
the given way. -/
def SameUnless (A : Outcome α → Prop) (m m' : Search α) : Prop :=
  ∀ s, A (m.run s) ∨ m'.run s = m.run s

theorem SameUnless.bind {β : Type} {A : Outcome β → Prop} {m : Search α} {f f' : α → Search β}
    (h : ∀ a, SameUnless A (f a) (f' a)) : SameUnless A (m >>= f) (m >>= f') := by
  intro s
  rw [run_bind, run_bind]
  cases m.run s with
  | success a t => exact h a t
  | failure why t => exact .inr rfl
  | overflow l => exact .inr rfl

/-- A failure is grave, or comes with the steps used up. -/
def Halting (T : Theory) (o : Outcome α) : Prop := ∀ why t, o = .failure why t → T.Halted why t

/-- A limit is what the search fails for. -/
def Limited (o : Outcome α) : Prop := ∃ why t, o = .failure why t ∧ why.isExhausted = true

section Edge

variable {found wanted : Term} {k k' : Option Proof → Search ρ} {S : ρ → State → Prop}

/-- The search for the inclusion crosses the bridge and halts, or fails as it does with anything else
behind the bridge. -/
theorem inclusion_same (hT : T.Library) (hyields : ∀ p s, (k p).Yields s S)
    (hgrave : ∀ p s why t, (k p).run s = .failure why t → why.Grave) {s t : State} {why : Failure}
    (hrun : (solve T room ρ (.subrel found wanted)
      (crossing s.ledger.bridges fun p => k (some p))).run s.begin = .failure why t)
    (hnot : ¬ (s.ledger.bridges ∈ t.ledger.crossed ∧ T.Halted why t)) :
    (solve T room ρ (.subrel found wanted)
      (crossing s.ledger.bridges fun p => k' (some p))).run s.begin = .failure why t :=
  (solve_unmoved hT room (crossing_unmoved (fun p => hyields (some p))
    fun p => hgrave (some p))).same s.begin why t (Nat.lt_succ_self _) hrun hnot

/-- A bridge that was crossed passes on what made the search fail. -/
theorem bridging_crossed {search : (Proof → Search ρ) → Search ρ} {k : Proof → Search ρ} {goal : Goal}
    {s t : State} {why : Failure}
    (hrun : (search (crossing s.ledger.bridges k)).run s.begin = .failure why t)
    (hcrossed : s.ledger.bridges ∈ t.ledger.crossed) :
    (bridging search k fun crossed why => if crossed then fail why else gap goal).run s =
      .failure why { t with ledger :=
        { t.ledger with crossed := t.ledger.crossed.erase s.ledger.bridges } } := by
  rw [bridging_run, run_recover, hrun]
  change (if t.ledger.crossed.contains s.ledger.bridges = true then fail why else _).run _ = _
  rw [if_pos (by simpa using hcrossed)]
  rfl

theorem bridgeEdge_halting (hT : T.Library) (hyields : ∀ p s, (k p).Yields s S)
    (hgrave : ∀ p s why t, (k p).run s = .failure why t → why.Grave) :
    SameUnless (Halting T) (bridgeEdge (solve T room) found wanted k)
      (bridgeEdge (solve T room) found wanted k') := by
  refine .bind fun ok s => ?_
  cases ok with
  | true => exact .inl fun why t hrun => .inl (hgrave none s why t hrun)
  | false =>
    simp only [Bool.false_eq_true, if_false]
    cases hrun : (solve T room ρ (.subrel found wanted)
      (crossing s.ledger.bridges fun p => k (some p))).run s.begin with
    | success a t =>
      refine .inl fun why u h => ?_
      rw [bridging_run, run_recover, hrun] at h
      cases h
    | overflow l =>
      refine .inl fun why u h => ?_
      rw [bridging_run, run_recover, hrun] at h
      cases h
    | failure why t =>
      by_cases hhalted : s.ledger.bridges ∈ t.ledger.crossed ∧ T.Halted why t
      · refine .inl fun why' u h => ?_
        rw [bridging_crossed hrun hhalted.1] at h
        cases h
        exact hhalted.2
      · exact .inr (bridging_congr ((inclusion_same hT hyields hgrave hrun hhalted).trans hrun.symm))

/-- What is cut short behind a bridge is reported. -/
theorem bridgeEdge_limited (hT : T.Library) (hyields : ∀ p s, (k p).Yields s S)
    (hgrave : ∀ p s why t, (k p).run s = .failure why t → why.Grave)
    (hk : ∀ p, UnlessCut T (k p) (k' p)) :
    SameUnless Limited (bridgeEdge (solve T room) found wanted k)
      (bridgeEdge (solve T room) found wanted k') := by
  refine .bind fun ok s => ?_
  cases ok with
  | true =>
    by_cases hcut : ((k none).run s).CutShort T
    · obtain ⟨why, t, hrun, hwhy, -⟩ := hcut
      exact .inl ⟨why, t, hrun, hwhy⟩
    · exact .inr (hk none s hcut)
  | false =>
    simp only [Bool.false_eq_true, if_false]
    have hcuts : UnlessCut T
        (solve T room ρ (.subrel found wanted) (crossing s.ledger.bridges fun p => k (some p)))
        (solve T room ρ (.subrel found wanted) (crossing s.ledger.bridges fun p => k' (some p))) :=
      solve_passesCuts hT room fun p => .bind fun _ => hk (some p)
    by_cases hcut : ((solve T room ρ (.subrel found wanted)
      (crossing s.ledger.bridges fun p => k (some p))).run s.begin).CutShort T
    · obtain ⟨why, t, hrun, hwhy, -⟩ := hcut
      by_cases hcrossed : s.ledger.bridges ∈ t.ledger.crossed
      · exact .inl ⟨why, _, bridging_crossed hrun hcrossed, hwhy⟩
      · exact .inr (bridging_congr ((inclusion_same hT hyields hgrave hrun
          fun h => hcrossed h.1).trans hrun.symm))
    · exact .inr (bridging_congr (hcuts s.begin hcut))

end Edge

/-- A transport in which only what follows the edge differs. -/
theorem transport_sameUnless {A : Outcome Transported → Prop} {prove prove' : Prover}
    (h : ∀ (lifted edge : Fact) (expected : Term) (result : Subst → Option Term),
      SameUnless A
        (bridgeEdge prove edge.rel expected
          (fromEdge T prove bound liftedId edgeId lifted edge result c))
        (bridgeEdge prove' edge.rel expected
          (fromEdge T prove' bound liftedId edgeId lifted edge result c))) :
    SameUnless A (transport T prove bound liftedId edgeId lifted edge c)
      (transport T prove' bound liftedId edgeId lifted edge c) := by
  refine .bind fun lifted => .bind fun edge => .bind fun σ => ?_
  dsimp only
  split <;> exact .bind fun x => h lifted edge x.1 x.2

/-- With an alarm for limits: nothing is known of a transport that fails for something grave, or with
its steps used up. -/
theorem transport_halting (hT : T.Library) (raised : Failure → Ledger → Bool)
    (alarm : (ρ : Type) → Search ρ) :
    SameUnless (Halting T) (transport T (solve T room) bound liftedId edgeId lifted edge c)
      (transport T (alarmed T raised alarm room) bound liftedId edgeId lifted edge c) :=
  transport_sameUnless fun _ _ _ _ =>
    bridgeEdge_halting hT (fun _ => fromEdge_yields hT) fun _ _ _ _ => fromEdge_grave

/-- With an alarm for what is cut short: it does not go off, or the transport fails for a limit. -/
theorem transport_limited (hT : T.Library) (alarm : (ρ : Type) → Search ρ) :
    SameUnless Limited (transport T (solve T room) bound liftedId edgeId lifted edge c)
      (transport T (alarmed T (cutShort T) alarm room) bound liftedId edgeId lifted edge c) :=
  transport_sameUnless fun _ _ _ _ =>
    bridgeEdge_limited hT (fun _ => fromEdge_yields hT) (fun _ _ _ _ => fromEdge_grave)
      fun _ => .bind fun _ => discharge_alarmed hT

/-- What a transport fails for is mild, or an obstacle. -/
theorem transport_blames (hT : T.Library) :
    (transport T (solve T room) bound liftedId edgeId lifted edge c).Blames
      (fun why => why.Mild ∨ Obstructed why) Z := by
  have hedge (lifted edge : Fact) (expected : Term) (result : Subst → Option Term) :
      (bridgeEdge (solve T room) edge.rel expected
        (fromEdge T (solve T room) bound liftedId edgeId lifted edge result c)).Blames
          (fun why => why.Mild ∨ Obstructed why) Z := by
    have hfrom (bridged : Option Proof) : (fromEdge T (solve T room) bound liftedId edgeId lifted edge
        result c bridged).Blames (fun why => why.Mild ∨ Obstructed why) Z := by
      intro s why t h
      rcases fromEdge_fails (solve T room) h with ⟨hwhy, -⟩ | hwhy
      · exact .inl (.inr hwhy)
      · exact .inl (.inl (Failure.mild_of_isExhausted hwhy))
    refine .after .unify fun ok => ?_
    split
    · exact hfrom none
    · refine blames_bridging (fun cross hcross => hT.blames_solve (fun _ => .inl) room hcross)
        (fun _ p => .after .enterLedger fun _ => hfrom (some p)) fun crossed why hwhy => ?_
      split
      · exact fun _ => .fail hwhy
      · exact .of_mild (fun _ => .inl) .gap
  have htotal (f : Fact) : (renamed f).Total := .bind .reserve fun _ => .pure
  refine .after (htotal _) fun lifted => .after (htotal _) fun edge => .subst fun σ => ?_
  dsimp only
  split
  · exact hedge lifted edge _ _
  · exact hedge lifted edge _ _
  · exact .bind (fun _ => .fail (.inr ⟨_, rfl⟩)) fun x => hedge lifted edge x.1 x.2

end Search

namespace Engine

open Search

variable {E : Engine}

theorem transportBy_rethinking (hE : E.theory.Library) (deep : Prover)
    (found : (ρ : Type) → Proof → Search ρ) (lifted edge : Nat) (c : Computation) :
    E.transportBy (rethinking E.theory deep found E.theory.limits.maxDepth) lifted edge c =
      E.transport lifted edge c := by
  rw [← transportBy_solve]
  simp only [transportBy, transport_rethinking hE]

/-- The alarm does not go off in the transport: what it does makes no difference. -/
def Quiet (E : Engine) (raised : Failure → Ledger → Bool) (lifted edge : Nat) (c : Computation) :
    Prop :=
  ∀ alarm : (ρ : Type) → Search ρ,
    E.transportBy (alarmed E.theory raised alarm E.theory.limits.maxDepth) lifted edge c =
      E.transport lifted edge c

/-- The search of the transport, run from the state in which it starts, ends in this way. -/
inductive Ends (E : Engine) (lifted edge : Nat) (c : Computation) : Outcome Transported → Prop
  | run {f e : Fact} {bound : Nat} (hf : E.theory.registry.facts[lifted]? = some f)
    (he : E.theory.registry.facts[edge]? = some e)
    (hbound : schematic? [c.term, c.value] = some bound) :
    Ends E lifted edge c ((Search.transport E.theory
      (Search.solve E.theory E.theory.limits.maxDepth) bound lifted edge f e c).run (E.start bound))

/-- The edge's relation is unified with the one that the function fact expects, both facts renamed
apart. -/
inductive Unifies (E : Engine) (lifted edge : Nat) (c : Computation) : Prop
  | intro {f e : Fact} {bound : Nat} {expected : Term} {result : Subst → Option Term} {σ : Subst}
    (hf : E.theory.registry.facts[lifted]? = some f)
    (he : E.theory.registry.facts[edge]? = some e)
    (hbound : schematic? [c.term, c.value] = some bound)
    (hlifts : (f.rename bound).Lifts (e.rename (bound + f.schematic)) .empty expected result)
    (hunify : Subst.empty.unify (e.rename (bound + f.schematic)).rel expected = some σ)

variable {lifted edge : Nat} {c : Computation}

theorem transportBy_congr {prove : Prover}
    (h : ∀ f e bound, E.theory.registry.facts[lifted]? = some f →
      E.theory.registry.facts[edge]? = some e → schematic? [c.term, c.value] = some bound →
      (Search.transport E.theory prove bound lifted edge f e c).run (E.start bound) =
        (Search.transport E.theory (Search.solve E.theory E.theory.limits.maxDepth) bound lifted edge
          f e c).run (E.start bound)) :
    E.transportBy prove lifted edge c = E.transport lifted edge c := by
  rw [← transportBy_solve]
  unfold transportBy
  split
  · next f e hf he =>
    unfold query
    cases hbound : schematic? [c.term, c.value] with
    | none => rfl
    | some bound => simp only [h f e bound hf he hbound]
  · rfl
  · rfl

theorem Ends.result_eq_error {o : Outcome Transported} {why : Failure} (h : E.Ends lifted edge c o) :
    (E.transport lifted edge c).1.result = .ok (.error why) ↔ ∃ t, o = .failure why t := by
  obtain ⟨hf, he, hbound⟩ := h
  simp only [transport, hf, he, query, hbound]
  split <;> simp_all

theorem Ends.blames (hE : E.theory.Library) {o : Outcome Transported} {why : Failure} {t : State}
    (h : E.Ends lifted edge c o) (ho : o = .failure why t) : why.Mild ∨ Obstructed why := by
  obtain ⟨hf, he, hbound⟩ := h
  exact (transport_blames hE _).cause ho

/-- Where the alarm does go off, the search of the transport ends in a way that is known. -/
theorem quiet_or_ends {A : Outcome Transported → Prop} {raised : Failure → Ledger → Bool}
    (h : ∀ f e bound (alarm : (ρ : Type) → Search ρ), SameUnless A
      (Search.transport E.theory (Search.solve E.theory E.theory.limits.maxDepth) bound lifted edge f
        e c)
      (Search.transport E.theory (alarmed E.theory raised alarm E.theory.limits.maxDepth) bound
        lifted edge f e c)) :
    E.Quiet raised lifted edge c ∨ ∃ o, E.Ends lifted edge c o ∧ A o := by
  by_cases hends : ∃ o, E.Ends lifted edge c o ∧ A o
  · exact .inr hends
  · refine .inl fun alarm => transportBy_congr fun f e bound hf he hbound => ?_
    exact (h f e bound alarm (E.start bound)).resolve_left fun ho => hends ⟨_, .run hf he hbound, ho⟩

/-- A fact is renamed behind the placeholders in use, and its own are then in use too. -/
theorem renamed_start {f f' : Fact} {n : Nat} {t : State}
    (h : (renamed f).run (E.start n) = .success f' t) :
    f' = f.rename n ∧ t = E.start (n + f.schematic) := by
  unfold renamed at h
  rw [run_bind] at h
  by_cases hindex : n + f.schematic < indexBound
  · have hreserve : (reserve f.schematic).run (E.start n) =
        .success n (E.start (n + f.schematic)) := by
      simp [reserve, start, hindex]
    rw [hreserve] at h
    cases h
    exact ⟨rfl, rfl⟩
  · have hreserve : (reserve f.schematic).run (E.start n) = .overflow (E.start n).ledger := by
      simp [reserve, start, hindex]
    rw [hreserve] at h
    cases h

/-- Where the relations are unified the transport goes on from the edge without a bridge. -/
theorem transport_of_unify (E : Engine) (lifted edge : Nat) (c : Computation) {f e : Fact}
    {bound : Nat} {expected : Term} {result : Subst → Option Term} {σ : Subst}
    (hlifts : (f.rename bound).Lifts (e.rename (bound + f.schematic)) .empty expected result)
    (hunify : Subst.empty.unify (e.rename (bound + f.schematic)).rel expected = some σ) :
    (∃ l, ∀ prove, (Search.transport E.theory prove bound lifted edge f e c).run (E.start bound) =
      .overflow l) ∨
    ∃ t, ∀ prove, (Search.transport E.theory prove bound lifted edge f e c).run (E.start bound) =
      (fromEdge E.theory prove bound lifted edge (f.rename bound) (e.rename (bound + f.schematic))
        result c none).run t := by
  have htotal (f : Fact) : (renamed f).Total := .bind .reserve fun _ => .pure
  cases hf : (renamed f).run (E.start bound) with
  | failure why t => exact (htotal f _ _ _ hf).elim
  | overflow l => exact .inl ⟨l, fun prove => by simp only [Search.transport, run_bind, hf]⟩
  | success f' t =>
    obtain ⟨rfl, rfl⟩ := renamed_start hf
    cases he : (renamed e).run (E.start (bound + f.schematic)) with
    | failure why t => exact (htotal e _ _ _ he).elim
    | overflow l => exact .inl ⟨l, fun prove => by simp only [Search.transport, run_bind, hf, he]⟩
    | success e' t =>
      obtain ⟨rfl, rfl⟩ := renamed_start he
      obtain ⟨ok, t, ht, -, hok⟩ := unify_run (e.rename (bound + f.schematic)).rel expected
        (E.start (bound + f.schematic + e.schematic))
      have hok : some σ = if ok then some t.subst else none := hunify.symm.trans hok
      cases ok with
      | false => cases hok
      | true =>
        refine .inr ⟨t, fun prove => ?_⟩
        have hedge : (bridgeEdge prove (e.rename (bound + f.schematic)).rel expected
            (fromEdge E.theory prove bound lifted edge (f.rename bound)
              (e.rename (bound + f.schematic)) result c)).run
              (E.start (bound + f.schematic + e.schematic)) =
            (fromEdge E.theory prove bound lifted edge (f.rename bound)
              (e.rename (bound + f.schematic)) result c none).run t := by
          rw [bridgeEdge, run_bind, ht]
          rfl
        rw [← hedge]
        have hempty : (E.start (bound + f.schematic + e.schematic)).subst = .empty := rfl
        cases hlifts with
        | dependent hview =>
          simp only [Search.transport, run_bind, hf, he, Search.subst, hempty, hview, run_pure]
          rfl
        | arrow hview =>
          simp only [Search.transport, run_bind, hf, he, Search.subst, hempty, hview, run_pure]
          rfl

/-- If the edge's relation is the expected one, then a transport that fails for another cause than a
limit has no obligations. -/
theorem Unifies.quiet_or_limited {raised : Failure → Ledger → Bool} {why : Failure}
    (h : E.Unifies lifted edge c)
    (hresult : (E.transport lifted edge c).1.result = .ok (.error why)) :
    E.Quiet raised lifted edge c ∨ why.isExhausted = true := by
  obtain @⟨f, e, bound, expected, result, σ, hf, he, hbound, hlifts, hunify⟩ := h
  obtain ⟨t, ht⟩ := (Ends.run hf he hbound).result_eq_error.1 hresult
  rcases transport_of_unify E lifted edge c hlifts hunify with ⟨l, hl⟩ | ⟨u, hu⟩
  · rw [hl] at ht
    cases ht
  · rw [hu] at ht
    refine or_iff_not_imp_right.2 fun hwhy alarm => transportBy_congr fun f' e' bound' hf' he' hbound' => ?_
    obtain rfl : f = f' := Option.some.inj (hf.symm.trans hf')
    obtain rfl : e = e' := Option.some.inj (he.symm.trans he')
    obtain rfl : bound = bound' := Option.some.inj (hbound.symm.trans hbound')
    rw [hu, hu, ht]
    exact ((fromEdge_fails _ ht).resolve_right hwhy).2

/-- If no limit and no obstacle is what a transport fails for, and there are steps left, then it has
no obligations that meet a limit. -/
theorem quiet_or_halted (hE : E.theory.Library) {raised : Failure → Ledger → Bool} {why : Failure}
    (hresult : (E.transport lifted edge c).1.result = .ok (.error why)) :
    E.Quiet raised lifted edge c ∨ why.isExhausted = true ∨ Obstructed why ∨
      ∃ o, E.Ends lifted edge c o ∧ E.theory.spent o.ledger = true := by
  refine (quiet_or_ends fun f e bound alarm => transport_halting hE raised alarm).imp_right ?_
  rintro ⟨o, ho, hhalting⟩
  obtain ⟨t, ht⟩ := ho.result_eq_error.1 hresult
  rcases hhalting why t ht with hgrave | hspent
  · exact (ho.blames hE ht).imp (fun hmild => (Failure.isExhausted_iff hmild).2 hgrave) .inl
  · exact .inr (.inr ⟨o, ho, by rwa [ht]⟩)

/-- How `transport` deals with limits that its obligations meet in `discharge`. None meets one if
the transport ends in an error other than these: that a limit was reached, which is the only one if
the edge's relation is the expected one; that something stands in the way of another way across the
edge; or, with the steps used up, any error at all. An obligation whose search says that a limit was
reached when the steps are used up makes the transport fail for this cause. And an obligation that
fails with steps left and for another cause has no proof at all: a second search, in which there is
room for all goals, fails in the same way. -/
theorem obligations_meet_limits (hE : E.theory.Library) (lifted edge : Nat) (c : Computation) :
    (∀ why, (E.transport lifted edge c).1.result = .ok (.error why) →
      E.Quiet limited lifted edge c ∨ why.isExhausted = true ∨
        ¬ E.Unifies lifted edge c ∧ ((∃ o, why = .notTransportable o) ∨
          ∃ o, E.Ends lifted edge c o ∧ E.theory.spent o.ledger = true)) ∧
    (E.Quiet (cutShort E.theory) lifted edge c ∨
      ∃ why, (E.transport lifted edge c).1.result = .ok (.error why) ∧ why.isExhausted = true) ∧
    ∀ (deep : Prover) (found : (ρ : Type) → Proof → Search ρ),
      E.transportBy (rethinking E.theory deep found E.theory.limits.maxDepth) lifted edge c =
        E.transport lifted edge c := by
  refine ⟨fun why hresult => ?_, ?_,
    fun deep found => transportBy_rethinking hE deep found lifted edge c⟩
  · by_cases hunifies : E.Unifies lifted edge c
    · exact (hunifies.quiet_or_limited hresult).imp_right .inl
    · exact (quiet_or_halted hE hresult).imp_right (.imp_right fun h => ⟨hunifies, h⟩)
  · refine (quiet_or_ends fun f e bound alarm => transport_limited hE alarm).imp_right ?_
    rintro ⟨o, ho, why, t, hrun, hwhy⟩
    exact ⟨why, ho.result_eq_error.2 ⟨t, hrun⟩, hwhy⟩

theorem eq_error_of_any {r : Except Fault (Except Failure Transported)} {why : Failure}
    (h : r.toOption.any (fun answer => match answer with
      | .error why' => decide (why' = why)
      | .ok _ => false) = true) : r = .ok (.error why) := by
  obtain ⟨answer, rfl, hanswer⟩ := exists_ok_of_any h
  cases answer with
  | error why' => rw [of_decide_eq_true hanswer]
  | ok answer => cases hanswer

/-- An engine that was told that `f` and `g` take arguments related by `P r` to results related by
`r`, that `Q` is included in `P T` and in `P U`, and `R` in `P T` only, and that `Q a b`, `R a b`,
`P T u v` and `S c d`; `h` and `k` take `S`-related arguments to `S`-related results. The values that
`T` relates are `C` and `D` with fields related by `S`; of `U` nothing is known. -/
def withBridge : Engine :=
  let told : Option Registry := do
    let (_, r) ← Registry.addFact? {} (.arrow (.app "P" [.var 0]) (.var 0)) (.const "f") (.const "g")
      (.const "fg")
    let (_, r) ← r.addFact? (.const "Q") (.const "a") (.const "b") (.const "Qab")
    let (_, r) ← r.addFact? (.const "R") (.const "a") (.const "b") (.const "Rab")
    let (_, r) ← r.addFact? (.app "P" [.const "T"]) (.const "u") (.const "v") (.const "uv")
    let (_, r) ← r.addFact? (.const "S") (.const "c") (.const "d") (.const "cd")
    let (_, r) ← r.addFact? (.arrow (.const "S") (.const "S")) (.const "h") (.const "k") (.const "hk")
    let (_, r) ← r.addInclusion? (.const "Q") (.app "P" [.const "T"]) (.const "QT")
    let (_, r) ← r.addInclusion? (.const "Q") (.app "P" [.const "U"]) (.const "QU")
    let (_, r) ← r.addInclusion? (.const "R") (.app "P" [.const "T"]) (.const "RT")
    return { r with schemes := r.schemes.insert "T" ⟨[⟨"C", "D", [.fixed (.const "S")]⟩]⟩ }
  { Engine.new {} with theory := { Theory.standard {} with registry := told.getD {} } }

/-- With room for one goal the inclusion of `R` in `P T` is found, but the obligation `S (h c) ?0` is
refused for want of room: the alarm goes off, and the transport says that a limit was reached. From
`f u` with the value `C w` it follows that `g v` has a value `D ?0` with `S w ?0`. This is put off
with steps left, and a second search for it, in which all goals are taken for proved for which there
is no room, changes nothing. -/
theorem withBridge_meets_limits :
    (∃ why, ((withBridge.deepen 1).transport 0 2 ⟨.app "f" [.const "a"],
        .app "C" [.app "h" [.const "c"]]⟩).1.result = .ok (.error why) ∧
      ¬ (withBridge.deepen 1).Quiet limited 0 2 ⟨.app "f" [.const "a"],
        .app "C" [.app "h" [.const "c"]]⟩ ∧
      (∀ o, why ≠ .notTransportable o) ∧ (why.isExhausted = true ∨
        ∃ o, (withBridge.deepen 1).Ends 0 2 ⟨.app "f" [.const "a"],
          .app "C" [.app "h" [.const "c"]]⟩ o ∧
          (withBridge.deepen 1).theory.spent o.ledger = true)) ∧
    ∃ r, (withBridge.transport 0 3 ⟨.app "f" [.const "u"],
        .app "C" [.const "w"]⟩).1.result = .ok (.ok r) ∧
      r.residual.isDeferred = true ∧ r.residual.stats.steps < 100000 ∧
      (withBridge.transportBy (rethinking withBridge.theory (fun _ _ k => k (.deferred 0))
        (fun _ _ => noRule (.subrel (.var 0) (.var 0))) 64) 0 3 ⟨.app "f" [.const "u"],
        .app "C" [.const "w"]⟩).1.result = .ok (.ok r) := by
  constructor
  · have hlimited : ((withBridge.deepen 1).transport 0 2 ⟨.app "f" [.const "a"],
        .app "C" [.app "h" [.const "c"]]⟩).1.result = .ok (.error (.exhausted 1 9)) :=
      eq_error_of_any (by decide +kernel)
    have halarm : ((withBridge.deepen 1).transportBy (alarmed (withBridge.deepen 1).theory limited
        (fun _ => noRule (.subrel (.var 0) (.var 0))) 1) 0 2 ⟨.app "f" [.const "a"],
        .app "C" [.app "h" [.const "c"]]⟩).1.result.toOption.any (·.toOption.isSome) = true := by
      decide +kernel
    have hloud : ¬ (withBridge.deepen 1).Quiet limited 0 2 ⟨.app "f" [.const "a"],
        .app "C" [.app "h" [.const "c"]]⟩ := by
      intro hquiet
      have hsame := hquiet fun _ => noRule (.subrel (.var 0) (.var 0))
      obtain ⟨answer, hanswer, hsome⟩ := exists_ok_of_any halarm
      rw [← hsame] at hlimited
      cases hlimited.symm.trans hanswer
      cases hsome
    obtain ⟨hmeets, -, -⟩ := obligations_meet_limits (library_standard {}) 0 2
      ⟨.app "f" [.const "a"], .app "C" [.app "h" [.const "c"]]⟩ (E := withBridge.deepen 1)
    refine ⟨.exhausted 1 9, hlimited, hloud, by simp, ?_⟩
    rcases (hmeets _ hlimited).resolve_left hloud with hwhy | ⟨-, ⟨o, ho⟩ | hspent⟩
    · exact .inl hwhy
    · cases ho
    · exact .inr hspent
  · have hdeferred : (withBridge.transport 0 3 ⟨.app "f" [.const "u"],
        .app "C" [.const "w"]⟩).1.result.toOption.any (fun answer => answer.toOption.any fun r =>
          r.residual.isDeferred && decide (r.residual.stats.steps < 100000)) = true := by
      decide +kernel
    obtain ⟨answer, hanswer, hfound⟩ := exists_ok_of_any hdeferred
    obtain ⟨r, rfl, hr⟩ := exists_ok_of_any hfound
    simp only [Bool.and_eq_true, decide_eq_true_eq] at hr
    refine ⟨r, hanswer, hr.1, hr.2, ?_⟩
    obtain ⟨-, -, hrethinks⟩ := obligations_meet_limits (library_standard {}) 0 3
      ⟨.app "f" [.const "u"], .app "C" [.const "w"]⟩ (E := withBridge)
    exact (congrArg (·.1.result) (hrethinks _ _)).trans hanswer

/-- Without room for a goal the inclusion of `Q` in `P ?0` is not looked for, and the transport says
that there is none. With a single step the obligation `S c ?0` is put off because the first rule does
not apply. And with room for one goal the obligation `S (h c) ?0` is refused behind the inclusion of
`Q` in `P T`, but what the transport says is that `U` has no scheme. With the usual limits all three
transports succeed and leave nothing to be proved. -/
theorem withBridge_hides_limits :
    ((withBridge.deepen 0).transport 0 1 ⟨.app "f" [.const "a"],
        .app "C" [.const "c"]⟩).1.result =
      .ok (.error (.gap (.goal (.subrel (.const "Q") (.app "P" [.var 0]))))) ∧
    (∃ r, ((withBridge.refuel 1).transport 0 3 ⟨.app "f" [.const "u"],
        .app "C" [.const "c"]⟩).1.result = .ok (.ok r) ∧
      r.residual.isDeferred = true ∧ r.residual.stats.steps = 1) ∧
    ((withBridge.deepen 1).transport 0 1 ⟨.app "f" [.const "a"],
        .app "C" [.app "h" [.const "c"]]⟩).1.result = .ok (.error (.notTransportable .noScheme)) ∧
    ∀ query ∈ [(1, "a", Term.const "c"), (3, "u", .const "c"), (1, "a", .app "h" [.const "c"])],
      ∃ r, (withBridge.transport 0 query.1 ⟨.app "f" [.const query.2.1],
          .app "C" [query.2.2]⟩).1.result = .ok (.ok r) ∧ r.residual.isSolved = true := by
  have hdeferred : ((withBridge.refuel 1).transport 0 3 ⟨.app "f" [.const "u"],
      .app "C" [.const "c"]⟩).1.result.toOption.any (·.toOption.any fun r =>
        r.residual.isDeferred && decide (r.residual.stats.steps = 1)) = true := by
    decide +kernel
  have hsolved : ∀ query ∈
      [(1, "a", Term.const "c"), (3, "u", .const "c"), (1, "a", .app "h" [.const "c"])],
      (withBridge.transport 0 query.1 ⟨.app "f" [.const query.2.1],
        .app "C" [query.2.2]⟩).1.result.toOption.any (·.toOption.any (·.residual.isSolved)) =
          true := by
    decide +kernel
  refine ⟨eq_error_of_any (by decide +kernel), ?_, eq_error_of_any (by decide +kernel),
    fun query hquery => ?_⟩
  · obtain ⟨answer, hanswer, hfound⟩ := exists_ok_of_any hdeferred
    obtain ⟨r, rfl, hr⟩ := exists_ok_of_any hfound
    simp only [Bool.and_eq_true, decide_eq_true_eq] at hr
    exact ⟨r, hanswer, hr⟩
  · obtain ⟨answer, hanswer, hfound⟩ := exists_ok_of_any (hsolved query hquery)
    obtain ⟨r, rfl, hr⟩ := exists_ok_of_any hfound
    exact ⟨r, hanswer, hr⟩

end Engine

end Monotonicity
