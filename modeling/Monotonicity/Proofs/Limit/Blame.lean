import Monotonicity.Proofs.Limit.Crossing
import Monotonicity.Proofs.Limit.Library

/-!
# What a search may fail for

A failure that comes out of a search was said somewhere in it. The rules of a library say only mild
things of their own, and of several failures one is passed on as it is. So a prover that is given a
continuation fails for a mild cause or for one that the continuation gave: this is
`Theory.Library.blames_solve`. Where the continuation gave it is told by the run: its trace has the
run of the continuation as a part.
-/

namespace Monotonicity

namespace Search

variable {α β ρ : Type} {T : Theory} {B : Failure → Prop}
  {Z : List Event → Prop} {m : Search α} {f : α → Search β}
  {s : State} {goal : Goal} {why : Failure}

/-- The events have a part of this kind. -/
def Occurs (Z : List Event → Prop) (events : List Event) : Prop := ∃ part, part <:+: events ∧ Z part

/-- From the state, the search fails only for causes in the class, unless its run has a part of the
given kind. -/
def FailsFor (B : Failure → Prop) (Z : List Event → Prop) (m : Search α) (s : State) : Prop :=
  ∀ why t, m.run s = .failure why t → B why ∨ Occurs Z (m.trace s)

def Blames (B : Failure → Prop) (Z : List Event → Prop) (m : Search α) : Prop :=
  ∀ s, m.FailsFor B Z s

theorem Occurs.mono {events events' : List Event} (h : Occurs Z events)
    (hle : events <:+: events') : Occurs Z events' := by
  obtain ⟨part, hpart, hZ⟩ := h
  exact ⟨part, hpart.trans hle, hZ⟩

theorem Occurs.left {events : List Event} (h : Occurs Z events) (rest : List Event) :
    Occurs Z (events ++ rest) :=
  h.mono (List.prefix_append events rest).isInfix

theorem Occurs.right {events : List Event} (h : Occurs Z events) (before : List Event) :
    Occurs Z (before ++ events) :=
  h.mono (List.suffix_append before events).isInfix

namespace FailsFor

theorem fail (h : B why) : (fail why : Search α).FailsFor B Z s := by
  intro why' t hrun
  cases hrun
  exact .inl h

/-- Without such parts it fails for causes in the class. -/
theorem cause (h : m.FailsFor B (fun _ => False) s) {t : State} (hrun : m.run s = .failure why t) :
    B why :=
  (h why t hrun).resolve_right fun ⟨_, _, hnone⟩ => hnone

theorem bind (hm : m.FailsFor B Z s)
    (hf : ∀ a t, m.run s = .success a t → (f a).FailsFor B Z t) : (m >>= f).FailsFor B Z s := by
  intro why t h
  rw [run_bind] at h
  rw [trace_bind]
  cases hrun : m.run s with
  | success a u =>
    rw [hrun] at h
    exact (hf a u hrun why t h).imp_right (·.right _)
  | failure why' u =>
    rw [hrun] at h
    cases h
    exact (hm why t hrun).imp_right (·.left _)
  | overflow l =>
    rw [hrun] at h
    cases h

end FailsFor

theorem Total.failsFor (h : m.Total) : m.FailsFor B Z s := fun why t hrun => (h s why t hrun).elim

namespace Blames

/-- A mild failure is in every class that has the mild ones. -/
theorem of_mild (hB : ∀ why, why.Mild → B why) (h : m.Mild) : m.Blames B Z :=
  fun s why t hrun => .inl (hB why (h s why t hrun))

theorem bind (hm : m.Blames B Z) (hf : ∀ a, (f a).Blames B Z) : (m >>= f).Blames B Z :=
  fun s => (hm s).bind fun a t _ => hf a t

/-- A search that does not fail, and then one that fails for causes in the class. -/
theorem after (hm : m.Total) (hf : ∀ a, (f a).Blames B Z) : (m >>= f).Blames B Z :=
  bind (fun _ => hm.failsFor) hf

theorem subst {f : Subst → Search β} (h : ∀ σ, (f σ).Blames B Z) : (subst >>= f).Blames B Z :=
  after .subst h

theorem ledger {f : Ledger → Search β} (h : ∀ l, (f l).Blames B Z) : (ledger >>= f).Blames B Z :=
  after (fun _ _ _ h => by cases h) h

/-- One way to go on if two terms can be unified, and another if not. -/
theorem unify {a b : Term} {n : Search α} (h : m.Blames B Z) (h' : n.Blames B Z) :
    (Search.unify a b >>= fun ok => if ok = true then m else n).Blames B Z := by
  refine after .unify fun ok => ?_
  cases ok with
  | true => exact h
  | false => exact h'

theorem recover {handler : Failure → Search α} (hm : m.Blames B Z)
    (hh : ∀ why, B why → (handler why).Blames B Z) : (m.recover handler).Blames B Z := by
  intro s why t h
  rw [run_recover] at h
  rw [trace_recover]
  cases hrun : m.run s with
  | success a u => simp [hrun] at h
  | overflow l => simp [hrun] at h
  | failure why' u =>
    simp only [hrun] at h
    rcases hm s why' u hrun with hwhy | hpart
    · exact (hh why' hwhy u why t h).imp_right (·.right _)
    · exact .inr (hpart.left _)

theorem attempt (hm : m.Blames B Z) : (attempt m).Blames B Z := by
  intro s why t h
  obtain ⟨u, hu, -⟩ := attempt_failure h
  exact (hm s why u hu).imp_right (·.left _)

theorem within {before after : State → State} (hm : m.Blames B Z) :
    (within before after m).Blames B Z := by
  intro s why t h
  unfold Search.within at h
  cases hrun : m.run (before s) <;> simp [hrun, Outcome.mapState] at h
  exact h.1 ▸ (hm _ _ _ hrun).imp_right fun hpart => (hpart.left _).right [.state (before s)]

theorem withdrawing {n : Nat} (hm : m.Blames B Z) : (withdrawing n m).Blames B Z := by
  intro s
  have hscope : (Search.within (·.withdraw n)
      (fun t => (t.withdraw n).assume (s.hyps.drop n)) m).Blames B Z := within hm
  exact hscope s

theorem inside (hm : m.Blames B Z) : (inside goal m).Blames B Z :=
  after (fun _ _ _ h => by cases h) fun _ => after .enterLedger fun _ => within hm

end Blames

/-! ## Alternatives -/

theorem blames_failBest {best : Option Failure} (hbest : ∀ b ∈ best, B b) (hm : m.Blames B Z) :
    (failBest m best).Blames B Z := by
  cases best with
  | none => exact hm
  | some b => exact fun _ => .fail (hbest b rfl)

theorem blames_unlessSpent (hwhy : B why) (hm : m.Blames B Z) : (unlessSpent T why m).Blames B Z := by
  refine .ledger fun l => ?_
  split
  · exact fun _ => .fail hwhy
  · exact hm

/-- Of two failures one is passed on. -/
theorem orElse_of_all {best : Option Failure} (hwhy : B why) (hbest : ∀ b ∈ best, B b) :
    B (why.orElse best) := by
  unfold Failure.orElse
  split
  · next earlier =>
    split
    · exact hbest earlier rfl
    · exact hwhy
  · exact hwhy

theorem blames_tryEach {run : α → Search ρ} {otherwise : Option Failure → Search ρ}
    (hrun : ∀ a, (run a).Blames B Z)
    (hother : ∀ best : Option Failure, (∀ b ∈ best, B b) → (otherwise best).Blames B Z)
    {as : List α} {best : Option Failure} (hbest : ∀ b ∈ best, B b) :
    (tryEach T run otherwise as best).Blames B Z := by
  induction as generalizing best with
  | nil => exact hother best hbest
  | cons a as ih =>
    refine (hrun a).attempt.recover fun why hwhy => blames_unlessSpent hwhy (ih ?_)
    simpa using orElse_of_all hwhy hbest

theorem blames_bridging {search : (Proof → Search ρ) → Search ρ} {k : Proof → Search ρ}
    {onFailure : Bool → Failure → Search ρ}
    (hsearch : ∀ cross : Proof → Search ρ, (∀ p, (cross p).Blames B Z) → (search cross).Blames B Z)
    (hcross : ∀ n p, (crossing n k p).Blames B Z)
    (hfail : ∀ crossed why, B why → (onFailure crossed why).Blames B Z) :
    (bridging search k onFailure).Blames B Z := by
  refine .after .beginBridge fun n => (hsearch _ (hcross n)).recover fun why hwhy => ?_
  exact .ledger fun l => .after .enterLedger fun _ => hfail _ why hwhy

/-! ## Provers -/

/-- The prover fails only for causes in the class, if its continuation does. -/
def ProverBlames (B : Failure → Prop) (Z : List Event → Prop) (prove : Prover) : Prop :=
  ∀ ⦃ρ : Type⦄ ⦃goal : Goal⦄ ⦃k : Proof → Search ρ⦄, (∀ p, (k p).Blames B Z) →
    (prove ρ goal k).Blames B Z

/-- The same of a method and those that its reductions are emitted to. -/
def MethodBlames (B : Failure → Prop) (Z : List Event → Prop) (T : Theory) (method : Method) :
    Prop :=
  ∀ ⦃prove : Prover⦄, ProverBlames B Z prove →
    ∀ ⦃ρ : Type⦄ ⦃name : String⦄ ⦃goal : Goal⦄ ⦃emit : Reduction → Search ρ⦄,
      (∀ r, (emit r).Blames B Z) → (method.run T prove name goal emit).Blames B Z

variable {prove : Prover} {k : Proof → Search ρ} {emit : Reduction → Search ρ}

theorem ProverBlames.proveAssuming (hprove : ProverBlames B Z prove) {further : List Hypothesis}
    (hk : ∀ p, (k p).Blames B Z) : (proveAssuming prove further goal k).Blames B Z :=
  .after .hyps fun _ => (hprove fun p => (hk p).withdrawing).within

theorem ProverBlames.proveAll (hprove : ProverBlames B Z prove) {k : List Proof → Search ρ}
    (hk : ∀ ps, (k ps).Blames B Z) {goals : List Goal} {done : List Proof} :
    (proveAll prove k goals done).Blames B Z := by
  induction goals generalizing done with
  | nil => exact hk done
  | cons g goals ih => exact hprove fun p => ih

theorem blames_tryRules (hB : ∀ why, why.Mild → B why) (hprove : ProverBlames B Z prove)
    (hk : ∀ p, (k p).Blames B Z) {rules : List Rule}
    (hrules : ∀ rule ∈ rules, MethodBlames B Z T rule.method) {best : Option Failure}
    (hbest : ∀ b ∈ best, B b) : (tryRules T prove goal k rules best).Blames B Z := by
  induction rules generalizing best with
  | nil => exact blames_failBest hbest (.of_mild hB .noRule)
  | cons rule rules ih =>
    rw [List.forall_mem_cons] at hrules
    refine .subst fun σ => ?_
    split
    · refine .ledger fun l => ?_
      split
      · exact .of_mild hB .exhausted
      · refine .after .enterLedger fun _ => ?_
        have happlied : (applyRule T prove goal k rule).Blames B Z :=
          hrules.1 hprove fun r => hprove.proveAll fun ps => hk _
        refine happlied.attempt.recover fun why hwhy => .after .enterLedger fun _ => ?_
        refine blames_unlessSpent hwhy (ih hrules.2 ?_)
        simpa using orElse_of_all hwhy hbest
    · exact ih hrules.2 hbest

theorem blames_solve (hB : ∀ why, why.Mild → B why)
    (hrules : ∀ rule ∈ T.rules, MethodBlames B Z T rule.method) (room : Nat) :
    ProverBlames B Z (solve T room) := by
  induction room with
  | zero => exact fun _ _ _ _ => .of_mild hB .exhausted
  | succ room ih =>
    intro ρ goal k hk
    refine .ledger fun l => ?_
    split
    · exact .of_mild hB .exhausted
    · refine .subst fun σ => .after (fun _ _ _ h => by cases h) fun active => ?_
      split
      · exact fun _ => .fail (hB _ (Failure.mild_noRule _))
      · exact .inside (blames_tryRules hB ih (fun p => .within (hk p)) hrules (by simp))

end Search

open Search

/-! ## The library -/

variable {T : Theory} {ρ : Type} {B : Failure → Prop}
  {Z : List Event → Prop} {prove : Prover} {goal : Goal}
  {emit : Reduction → Search ρ}

/-- A method that makes one reduction of a goal says what it says when nothing follows. -/
theorem Search.Candid.blames {method : Method} (h : Candid T method)
    (hB : ∀ why, why.Mild → B why) (reduce : Goal → Search Reduction)
    (hrun : ∀ {ρ : Type} (prove : Prover) (name : String) (goal : Goal)
      (emit : Reduction → Search ρ), method.run T prove name goal emit = reduce goal >>= emit) :
    MethodBlames B Z T method := by
  intro prove _ ρ name goal emit hemit
  have hmild : (reduce goal).Mild := by
    have hself : ProverUpheld T (solve T 0) (solve T 0) := fun _ _ _ _ _ => .refl .exhausted
    have hpure := (@h _ _ hself _ name goal pure pure fun r => .refl .pure).mild
    rwa [hrun, bind_pure] at hpure
  rw [hrun]
  exact .bind (.of_mild hB hmild) hemit

theorem blames_arrowIntro (hB : ∀ why, why.Mild → B why) : MethodBlames B Z T .arrowIntro := by
  intro prove hprove ρ name goal emit hemit
  cases goal with
  | subrel lesser greater => exact .of_mild hB .noRule
  | related rel left right =>
    refine .subst fun σ => ?_
    split
    · refine .after .freshConst fun x => .after .freshConst fun y => ?_
      refine .bind (.of_mild hB applied_mild) fun sides => ?_
      exact .after .freshConst fun h => hprove.proveAssuming fun p => hemit _
    · exact .of_mild hB .noRule

theorem blames_dependentIntro (hB : ∀ why, why.Mild → B why) :
    MethodBlames B Z T .dependentIntro := by
  intro prove hprove ρ name goal emit hemit
  cases goal with
  | subrel lesser greater => exact .of_mild hB .noRule
  | related rel left right =>
    refine .subst fun σ => ?_
    split
    · refine .after .freshConst fun v => .after .freshConst fun w => .after .freshConst fun e => ?_
      refine .bind (.of_mild hB applied_mild) fun sides => .subst fun σ => ?_
      refine .bind (.of_mild hB (.require .noRule)) fun inst => ?_
      exact hprove.proveAssuming fun p => hemit _
    · exact .of_mild hB .noRule

theorem blames_proveCases (hprove : ProverBlames B Z prove) (hemit : ∀ r, (emit r).Blames B Z)
    {cases : List Case} {done : List Proof} : (proveCases prove emit cases done).Blames B Z := by
  induction cases generalizing done with
  | nil => exact hemit _
  | cons c cases ih => exact hprove.proveAssuming fun p => ih

theorem blames_destruct (hB : ∀ why, why.Mild → B why) : MethodBlames B Z T .destruct := by
  intro prove hprove ρ name goal emit hemit
  cases goal with
  | subrel lesser greater => exact .of_mild hB .noRule
  | related rel left right =>
    refine .subst fun σ => ?_
    split
    · refine .after .freshVar fun scrutinees => hprove fun p => ?_
      exact .bind (.of_mild hB split_mild) fun cases => blames_proveCases hprove hemit
    · exact .of_mild hB .noRule

theorem blames_eachInclusion (hB : ∀ why, why.Mild → B why) {run : Nat → Term → Term → Search ρ}
    (hrun : ∀ id lesser greater, (run id lesser greater).Blames B Z) :
    (eachInclusion T goal run).Blames B Z := by
  refine blames_tryEach ?_ (fun best hbest => blames_failBest hbest (.of_mild hB .noRule)) (by simp)
  rintro ⟨f, id⟩
  exact .after .reserve fun offset => hrun id _ _

theorem blames_subrelFact (hB : ∀ why, why.Mild → B why) : MethodBlames B Z T .subrelFact := by
  intro prove _ ρ name goal emit hemit
  cases goal with
  | related rel left right => exact .of_mild hB .noRule
  | subrel lesser greater =>
    simp only [Method.run, subrelFact]
    exact blames_eachInclusion hB fun id l g =>
      .unify (.unify (hemit _) (.of_mild hB .noRule)) (.of_mild hB .noRule)

theorem blames_subrelTrans (hB : ∀ why, why.Mild → B why) : MethodBlames B Z T .subrelTrans := by
  intro prove _ ρ name goal emit hemit
  cases goal with
  | related rel left right => exact .of_mild hB .noRule
  | subrel lesser greater =>
    simp only [Method.run, subrelTrans]
    exact blames_eachInclusion hB fun id l g => .unify (hemit _) (.of_mild hB .noRule)

/-! ### Candidates -/

section

variable {k : Elimination → Search ρ} {a b : Term} {e : Elimination}

theorem blames_eliminateStraight (hB : ∀ why, why.Mild → B why) (hprove : ProverBlames B Z prove)
    (hk : ∀ e, (k e).Blames B Z) : (eliminateStraight prove goal e a b k).Blames B Z := by
  refine .subst fun σ => ?_
  split
  · exact hk _
  · refine hprove fun p => .after edgeName_total fun name => .subst fun σ => ?_
    exact .bind (.of_mild hB (.require .gap)) fun rel => hk _
  · exact hk _
  · exact hk _
  · refine .after .freshVar fun dom => .after .freshVar fun cod => ?_
    exact .unify (hk _) (.of_mild hB .gap)
  · exact .of_mild hB .gap

theorem blames_eliminate (hB : ∀ why, why.Mild → B why) (hprove : ProverBlames B Z prove)
    (hk : ∀ e, (k e).Blames B Z) : (eliminate prove goal e a b k).Blames B Z := by
  refine .subst fun σ => ?_
  split
  · split
    · exact blames_eliminateStraight hB hprove hk
    · exact blames_eliminateStraight hB hprove hk
    · exact blames_eliminateStraight hB hprove fun e => hk _
    · exact blames_eliminateStraight hB hprove fun e => hk _
    · exact blames_eliminateStraight hB hprove fun e => hk _
    · exact .of_mild hB .gap
  · exact blames_eliminateStraight hB hprove hk

theorem blames_eliminateAll (hB : ∀ why, why.Mild → B why) (hprove : ProverBlames B Z prove)
    (hk : ∀ e, (k e).Blames B Z) {pairs : List (Term × Term)} :
    (eliminateAll prove goal k pairs e).Blames B Z := by
  induction pairs generalizing e with
  | nil => exact hk e
  | cons pair pairs ih => exact blames_eliminate hB hprove fun e => ih

theorem blames_bridge (hB : ∀ why, why.Mild → B why) (hprove : ProverBlames B Z prove)
    {wanted : Term} (hk : ∀ e, (k e).Blames B Z) : (bridge prove goal wanted e k).Blames B Z := by
  refine .subst fun σ => ?_
  split
  · exact hk e
  · refine blames_bridging (fun _ hcross => hprove hcross)
      (fun _ p => .after .enterLedger fun _ => hk _) fun crossed why hwhy => ?_
    split
    · exact fun _ => .fail hwhy
    · exact .of_mild hB .gap

end

theorem blames_useCandidate (hB : ∀ why, why.Mild → B why) (hprove : ProverBlames B Z prove)
    (hemit : ∀ r, (emit r).Blames B Z) {arity : Nat} {c : Candidate} :
    (useCandidate prove goal arity emit c).Blames B Z := by
  cases goal with
  | subrel lesser greater => exact .of_mild hB .noRule
  | related rel left right =>
    refine .bind (.of_mild hB splitSide_mild) fun xs => .bind (.of_mild hB splitSide_mild) ?_
    exact fun ys => blames_eliminateAll hB hprove fun e =>
      blames_bridge hB hprove fun e => hemit _

theorem blames_tryBatches (hB : ∀ why, why.Mild → B why) (hprove : ProverBlames B Z prove)
    (hemit : ∀ r, (emit r).Blames B Z) {side : Side} {head : String} {arity : Nat}
    {batches : List Batch} {best : Option Failure} (hbest : ∀ b ∈ best, B b) :
    (tryBatches T prove goal side head arity emit batches best).Blames B Z := by
  induction batches generalizing best with
  | nil => exact blames_failBest hbest (.of_mild hB .noCandidate)
  | cons batch batches ih =>
    refine .after probe_total fun found => ?_
    exact blames_tryEach (fun c => blames_useCandidate hB hprove hemit)
      (fun best hbest => ih hbest) hbest

theorem blames_monotone (hB : ∀ why, why.Mild → B why) (side : Side) :
    MethodBlames B Z T (.monotone side) := by
  intro prove hprove ρ name goal emit hemit
  cases goal with
  | subrel lesser greater => exact .of_mild hB .noRule
  | related rel left right =>
    refine .subst fun σ => ?_
    split
    · exact .of_mild hB .noRule
    · split
      · exact blames_tryBatches hB hprove hemit (by simp)
      · exact .of_mild hB .noCandidate

/-! ### All rules -/

theorem Theory.Library.methodBlames (h : T.Library) (hB : ∀ why, why.Mild → B why) :
    ∀ rule ∈ T.rules, MethodBlames B Z T rule.method := by
  intro rule hrule
  rcases h rule hrule with hstandard | ⟨r, rfl⟩
  · simp only [Rule.standard, List.mem_cons, List.not_mem_nil, or_false] at hstandard
    rcases hstandard with rfl | rfl | rfl | rfl | rfl | rfl | rfl | rfl | rfl | rfl | rfl | rfl |
      rfl | rfl | rfl | rfl | rfl | rfl
    · exact fun _ _ _ _ _ _ hemit => hemit {}
    · exact candid_eqRefl.blames hB eqRefl fun _ _ _ _ => rfl
    · exact candid_flipIntro.blames hB flipIntro fun _ _ _ _ => rfl
    · exact blames_arrowIntro hB
    · exact blames_dependentIntro hB
    · exact candid_casesReduce.blames hB casesReduce fun _ _ _ _ => rfl
    · exact candid_subrelRefl.blames hB subrelRefl fun _ _ _ _ => rfl
    · exact candid_subrelExtremes.blames hB subrelExtremes fun _ _ _ _ => rfl
    · exact blames_subrelFact hB
    · exact candid_subrelStructural.blames hB (subrelStructural T) fun _ _ _ _ => rfl
    · exact blames_subrelTrans hB
    · exact blames_destruct hB
    · exact blames_monotone hB .left
    · exact blames_monotone hB .right
    · exact candid_eqCongruence.blames hB eqCongruence fun _ _ _ _ => rfl
    · exact candid_eqUnify.blames hB eqUnify fun _ _ _ _ => rfl
    · exact candid_reflPlaceholder.blames hB reflPlaceholder fun _ _ _ _ => rfl
    · exact candid_deferUnsolved.blames hB (deferUnsolved T) fun _ _ _ _ => rfl
  · exact candid_relatorIntro.blames hB (relatorIntro T) fun _ _ _ _ => rfl

/-- The solver of a library fails for a mild cause, or for one that its continuation gave. -/
theorem Theory.Library.blames_solve (h : T.Library) (hB : ∀ why, why.Mild → B why) (room : Nat) :
    ProverBlames B Z (solve T room) :=
  Search.blames_solve hB (h.methodBlames hB) room

end Monotonicity
