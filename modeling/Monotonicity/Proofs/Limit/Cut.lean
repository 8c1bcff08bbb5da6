import Monotonicity.Proofs.Calculus.Replay
import Monotonicity.Proofs.Limit.Basic

/-!
# Searches that are cut short

A search is cut short if it fails because a limit was reached and its steps are used up. Then no
further alternative is tried anywhere, and no bridge puts the failure into other words: the search
around it is cut short as well, up to the query. So what is done where a search is cut short makes
no difference to those that are not. `UnlessCut` compares two searches in this way; as the steps are
counted on through all branches, nothing is asked of the rules but that they use their provers and
continuations in the common ways.
-/

namespace Monotonicity

/-- The search failed because a limit was reached, and the steps are used up. -/
def Outcome.CutShort {α : Type} (T : Theory) (o : Outcome α) : Prop :=
  ∃ why t, o = .failure why t ∧ why.isExhausted = true ∧ T.spent t.ledger = true

namespace Search

variable {α β ρ : Type} {T : Theory} {m m' : Search α} {f f' : α → Search β} {s : State}
  {goal : Goal} {why : Failure}

/-- From a state from which the first search is not cut short, the second does the same. -/
def UnlessCut (T : Theory) (m m' : Search α) : Prop :=
  ∀ s, ¬ (m.run s).CutShort T → m'.run s = m.run s

namespace UnlessCut

theorem refl : UnlessCut T m m := fun _ _ => rfl

/-! ## Ways of making searches -/

theorem bind (h : ∀ a, UnlessCut T (f a) (f' a)) : UnlessCut T (m >>= f) (m >>= f') := by
  intro s hcut
  rw [run_bind] at hcut
  rw [run_bind, run_bind]
  cases hrun : m.run s with
  | success a t =>
    rw [hrun] at hcut
    exact h a t hcut
  | failure why t => rfl
  | overflow l => rfl

theorem ite {c : Prop} [Decidable c] {n n' : Search α} (h : UnlessCut T m m')
    (h' : UnlessCut T n n') : UnlessCut T (if c then m else n) (if c then m' else n') := by
  split
  · exact h
  · exact h'

theorem attempt (h : UnlessCut T m m') : UnlessCut T (attempt m) (Search.attempt m') := by
  intro s hcut
  have hrun : m'.run s = m.run s := by
    refine h s ?_
    rintro ⟨why, t, hrun, hwhy, hspent⟩
    exact hcut ⟨why, t.undo s.mark, by simp [Search.attempt, hrun], hwhy, hspent⟩
  simp only [Search.attempt, hrun]

/-- After a search that was cut short, the rest has to be cut short. -/
theorem recover {handler handler' : Failure → Search α} (h : UnlessCut T m m')
    (hh : ∀ why, UnlessCut T (handler why) (handler' why))
    (hpass : ∀ why t, why.isExhausted = true → T.spent t.ledger = true →
      ((handler why).run t).CutShort T) :
    UnlessCut T (m.recover handler) (m'.recover handler') := by
  intro s hcut
  rw [run_recover] at hcut
  have hrun : m'.run s = m.run s := by
    refine h s ?_
    rintro ⟨why, t, hrun, hwhy, hspent⟩
    rw [hrun] at hcut
    exact hcut (hpass why t hwhy hspent)
  rw [run_recover, run_recover, hrun]
  cases hm : m.run s with
  | success a t => rfl
  | overflow l => rfl
  | failure why t =>
    rw [hm] at hcut
    exact hh why t hcut

theorem within {before after : State → State} (hafter : ∀ t, (after t).ledger = t.ledger)
    (h : UnlessCut T m m') : UnlessCut T (within before after m) (Search.within before after m') := by
  intro s hcut
  have hrun : m'.run (before s) = m.run (before s) := by
    refine h _ ?_
    rintro ⟨why, t, hrun, hwhy, hspent⟩
    refine hcut ⟨why, after t, by simp [Search.within, hrun, Outcome.mapState], hwhy, ?_⟩
    rwa [hafter]
  simp only [Search.within, hrun]

theorem withdrawing {n : Nat} (h : UnlessCut T m m') :
    UnlessCut T (withdrawing n m) (Search.withdrawing n m') := by
  -- what is put back depends on the state
  have hat (s : State) : UnlessCut T
      (Search.within (·.withdraw n) (fun t => (t.withdraw n).assume (s.hyps.drop n)) m)
      (Search.within (·.withdraw n) (fun t => (t.withdraw n).assume (s.hyps.drop n)) m') :=
    h.within fun _ => rfl
  exact fun s => hat s s

theorem inside (h : UnlessCut T m m') : UnlessCut T (inside goal m) (Search.inside goal m') :=
  bind fun _ => bind fun _ => h.within fun _ => rfl

theorem outside (h : UnlessCut T m m') : UnlessCut T (outside goal m) (Search.outside goal m') :=
  h.within fun _ => rfl

/-! ## Alternatives and bridges -/

theorem unlessSpent (h : UnlessCut T m m') :
    UnlessCut T (unlessSpent T why m) (Search.unlessSpent T why m') :=
  bind fun _ => ite refl h

/-- With the steps used up a failure for want of them is passed on. -/
theorem cutShort_unlessSpent (hwhy : why.isExhausted = true) (hs : T.spent s.ledger = true) :
    ((Search.unlessSpent T why m).run s).CutShort T := by
  refine ⟨why, s, ?_, hwhy, hs⟩
  change (if T.spent s.ledger = true then fail why else m).run s = _
  rw [if_pos hs]
  rfl

theorem tryEach {run run' : α → Search ρ} {otherwise otherwise' : Option Failure → Search ρ}
    (hrun : ∀ a, UnlessCut T (run a) (run' a))
    (hother : ∀ best, UnlessCut T (otherwise best) (otherwise' best)) {as : List α}
    {best : Option Failure} :
    UnlessCut T (tryEach T run otherwise as best) (Search.tryEach T run' otherwise' as best) := by
  induction as generalizing best with
  | nil => exact hother best
  | cons a as ih =>
    exact (hrun a).attempt.recover (fun why => ih.unlessSpent)
      fun why t hwhy hspent => cutShort_unlessSpent hwhy hspent

/-- A bridge may put a failure into other words unless a limit was reached. -/
theorem bridging {search search' : (Proof → Search ρ) → Search ρ} {k k' : Proof → Search ρ}
    {onFailure : Bool → Failure → Search ρ}
    (hsearch : ∀ cross cross' : Proof → Search ρ, (∀ p, UnlessCut T (cross p) (cross' p)) →
      UnlessCut T (search cross) (search' cross'))
    (hk : ∀ p, UnlessCut T (k p) (k' p))
    (hpass : ∀ crossed why, why.isExhausted = true → onFailure crossed why = fail why) :
    UnlessCut T (bridging search k onFailure) (Search.bridging search' k' onFailure) := by
  refine bind fun number => (hsearch _ _ fun p => bind fun _ => hk p).recover (fun why => refl) ?_
  intro why t hwhy hspent
  let closed : State :=
    { t with ledger := { t.ledger with crossed := t.ledger.crossed.erase number } }
  refine ⟨why, closed, ?_, hwhy, hspent⟩
  change (onFailure (t.ledger.crossed.contains number) why).run closed = _
  rw [hpass _ why hwhy]
  rfl

end UnlessCut

/-! ## Provers -/

variable {prove : Prover} {k k' : Proof → Search ρ} {emit emit' : Reduction → Search ρ}

/-- The prover is cut short where its continuation is. -/
def PassesCuts (T : Theory) (prove : Prover) : Prop :=
  ∀ ⦃ρ : Type⦄ ⦃goal : Goal⦄ ⦃k k' : Proof → Search ρ⦄, (∀ p, UnlessCut T (k p) (k' p)) →
    UnlessCut T (prove ρ goal k) (prove ρ goal k')

namespace PassesCuts

theorem proveAssuming (hprove : PassesCuts T prove) {further : List Hypothesis}
    (hk : ∀ p, UnlessCut T (k p) (k' p)) :
    UnlessCut T (proveAssuming prove further goal k) (Search.proveAssuming prove further goal k') :=
  .bind fun _ => (hprove fun p => (hk p).withdrawing).within fun _ => rfl

theorem proveAll (hprove : PassesCuts T prove) {k k' : List Proof → Search ρ}
    (hk : ∀ ps, UnlessCut T (k ps) (k' ps)) {goals : List Goal} {done : List Proof} :
    UnlessCut T (proveAll prove k goals done) (Search.proveAll prove k' goals done) := by
  induction goals generalizing done with
  | nil => exact hk done
  | cons g goals ih => exact hprove fun p => ih

/-! ## Rules -/

theorem proveCases (hprove : PassesCuts T prove) (hemit : ∀ r, UnlessCut T (emit r) (emit' r))
    {cases : List Case} {done : List Proof} :
    UnlessCut T (proveCases prove emit cases done) (Search.proveCases prove emit' cases done) := by
  induction cases generalizing done with
  | nil => exact hemit _
  | cons c cases ih => exact hprove.proveAssuming fun p => ih

theorem eliminateStraight (hprove : PassesCuts T prove) {e : Elimination} {a b : Term}
    {k k' : Elimination → Search ρ} (hk : ∀ e, UnlessCut T (k e) (k' e)) :
    UnlessCut T (eliminateStraight prove goal e a b k)
      (Search.eliminateStraight prove goal e a b k') := by
  refine .bind fun σ => ?_
  split
  · exact hk _
  · exact hprove fun p => .bind fun _ => .bind fun _ => .bind fun _ => hk _
  · exact hk _
  · exact hk _
  · exact .bind fun _ => .bind fun _ => .bind fun _ => .ite (hk _) .refl
  · exact .refl

theorem eliminate (hprove : PassesCuts T prove) {e : Elimination} {a b : Term}
    {k k' : Elimination → Search ρ} (hk : ∀ e, UnlessCut T (k e) (k' e)) :
    UnlessCut T (eliminate prove goal e a b k) (Search.eliminate prove goal e a b k') := by
  refine .bind fun σ => ?_
  split
  · split
    · exact hprove.eliminateStraight hk
    · exact hprove.eliminateStraight hk
    · exact hprove.eliminateStraight fun e => hk _
    · exact hprove.eliminateStraight fun e => hk _
    · exact hprove.eliminateStraight fun e => hk _
    · exact .refl
  · exact hprove.eliminateStraight hk

theorem eliminateAll (hprove : PassesCuts T prove) {k k' : Elimination → Search ρ}
    (hk : ∀ e, UnlessCut T (k e) (k' e)) {pairs : List (Term × Term)} {e : Elimination} :
    UnlessCut T (eliminateAll prove goal k pairs e) (Search.eliminateAll prove goal k' pairs e) := by
  induction pairs generalizing e with
  | nil => exact hk e
  | cons pair pairs ih => exact hprove.eliminate fun e => ih

theorem bridge (hprove : PassesCuts T prove) {wanted : Term} {e : Elimination}
    {k k' : Elimination → Search ρ} (hk : ∀ e, UnlessCut T (k e) (k' e)) :
    UnlessCut T (bridge prove goal wanted e k) (Search.bridge prove goal wanted e k') := by
  refine .bind fun σ => .ite (hk e) (.bridging (fun _ _ hcross => hprove hcross) (fun p => hk _) ?_)
  intro crossed why hwhy
  rw [hwhy, Bool.true_or, if_pos rfl]

theorem useCandidate (hprove : PassesCuts T prove) (hemit : ∀ r, UnlessCut T (emit r) (emit' r))
    {arity : Nat} {c : Candidate} :
    UnlessCut T (useCandidate prove goal arity emit c)
      (Search.useCandidate prove goal arity emit' c) := by
  cases goal with
  | subrel lesser greater => exact .refl
  | related rel left right =>
    refine .bind fun xs => .bind fun ys => ?_
    exact hprove.eliminateAll fun e => hprove.bridge fun e => hemit _

theorem tryBatches (hprove : PassesCuts T prove) (hemit : ∀ r, UnlessCut T (emit r) (emit' r))
    {side : Side} {head : String} {arity : Nat} {batches : List Batch} {best : Option Failure} :
    UnlessCut T (tryBatches T prove goal side head arity emit batches best)
      (Search.tryBatches T prove goal side head arity emit' batches best) := by
  induction batches generalizing best with
  | nil => exact .refl
  | cons batch batches ih =>
    exact .bind fun found => .tryEach (fun c => hprove.useCandidate hemit) fun best => ih

/-- A method of a library's rule is cut short where its prover or what follows is. -/
theorem run (hT : T.Library) {rule : Rule} (hrule : rule ∈ T.rules) (hprove : PassesCuts T prove)
    (hemit : ∀ r, UnlessCut T (emit r) (emit' r)) :
    UnlessCut T (rule.method.run T prove rule.name goal emit)
      (rule.method.run T prove rule.name goal emit') := by
  cases hmethod : rule.method with
  | arrowIntro =>
    cases goal with
    | subrel lesser greater => exact .refl
    | related rel left right =>
      refine .bind fun σ => ?_
      split
      · exact .bind fun x => .bind fun y => .bind fun sides => .bind fun h =>
          hprove.proveAssuming fun p => hemit _
      · exact .refl
  | dependentIntro =>
    cases goal with
    | subrel lesser greater => exact .refl
    | related rel left right =>
      refine .bind fun σ => ?_
      split
      · exact .bind fun v => .bind fun w => .bind fun e => .bind fun sides => .bind fun σ =>
          .bind fun inst => hprove.proveAssuming fun p => hemit _
      · exact .refl
  | subrelFact =>
    cases goal with
    | related rel left right => exact .refl
    | subrel lesser greater =>
      refine .tryEach (fun f => ?_) fun best => .refl
      exact .bind fun offset => .bind fun _ => .ite (.bind fun _ => .ite (hemit _) .refl) .refl
  | subrelTrans =>
    cases goal with
    | related rel left right => exact .refl
    | subrel lesser greater =>
      refine .tryEach (fun f => ?_) fun best => .refl
      exact .bind fun offset => .bind fun _ => .ite (hemit _) .refl
  | destruct =>
    cases goal with
    | subrel lesser greater => exact .refl
    | related rel left right =>
      refine .bind fun σ => ?_
      split
      · exact .bind fun scrutinees => hprove fun p => .bind fun cases => hprove.proveCases hemit
      · exact .refl
  | monotone side =>
    cases goal with
    | subrel lesser greater => exact .refl
    | related rel left right =>
      refine .bind fun σ => .ite .refl ?_
      split
      · exact hprove.tryBatches hemit
      · exact .refl
  | top => exact hemit _
  | script locals body => exact absurd hmethod ((hT.unscripted hrule).1 locals body)
  | choice locals alternatives => exact absurd hmethod ((hT.unscripted hrule).2 locals alternatives)
  | _ => exact .bind hemit

end PassesCuts

/-! ## The solver -/

theorem applyRule_unlessCut (hT : T.Library) {rule : Rule} (hrule : rule ∈ T.rules)
    (hprove : PassesCuts T prove) (hk : ∀ p, UnlessCut T (k p) (k' p)) :
    UnlessCut T (applyRule T prove goal k rule) (applyRule T prove goal k' rule) :=
  hprove.run hT hrule fun _ => hprove.proveAll fun _ => hk _

theorem tryRules_unlessCut (hT : T.Library) (hprove : PassesCuts T prove)
    (hk : ∀ p, UnlessCut T (k p) (k' p)) {rules : List Rule} (hrules : ∀ rule ∈ rules, rule ∈ T.rules)
    {best : Option Failure} :
    UnlessCut T (tryRules T prove goal k rules best) (tryRules T prove goal k' rules best) := by
  induction rules generalizing best with
  | nil => exact .refl
  | cons rule rules ih =>
    rw [List.forall_mem_cons] at hrules
    refine .bind fun σ => .ite (.bind fun l => .ite .refl (.bind fun _ => ?_)) (ih hrules.2)
    refine (applyRule_unlessCut hT hrules.1 hprove hk).attempt.recover
      (fun why => .bind fun _ => (ih hrules.2).unlessSpent) fun why t hwhy hspent => ?_
    exact UnlessCut.cutShort_unlessSpent
      (s := t.counted fun n => { n with backtracks := n.backtracks + 1 }) hwhy hspent

/-- The solver is cut short where its continuation is. -/
theorem solve_passesCuts (hT : T.Library) (room : Nat) : PassesCuts T (solve T room) := by
  induction room with
  | zero => exact fun _ _ _ _ _ => .refl
  | succ room ih =>
    intro ρ goal k k' hk
    refine .bind fun l => .ite .refl (.bind fun σ => .bind fun gs => .ite .refl ?_)
    exact (tryRules_unlessCut hT ih (fun p => (hk p).outside) fun _ => id).inside

end Search

end Monotonicity
