import Monotonicity.Proofs.Calculus.Replay
import Monotonicity.Proofs.Limit.Basic

/-!
# No rule of a library hides a limit

What a rule itself has to say when it fails is mild, and what its prover says it passes on. The
bridge of a candidate is the one place where a failure is put into other words, and there a limit is
passed on as it is.
-/

namespace Monotonicity

open Search

variable {T : Theory} {α ρ : Type} {goal : Goal} {prove prove' : Prover}
  {emit emit' : Reduction → Search ρ}

/-! ## Introduction and last resorts -/

theorem candid_top : Candid T .top := fun _ _ _ _ _ _ _ _ hemit => hemit {}

theorem candid_eqRefl : Candid T .eqRefl := by
  refine .of_mild eqRefl (fun _ _ _ _ => rfl) fun goal => ?_
  cases goal with
  | subrel lesser greater => exact .noRule
  | related rel left right =>
    refine .after .subst fun σ => ?_
    split
    · exact .pure
    · exact .noRule

theorem candid_flipIntro : Candid T .flipIntro := by
  refine .of_mild flipIntro (fun _ _ _ _ => rfl) fun goal => ?_
  cases goal with
  | subrel lesser greater => exact .noRule
  | related rel left right =>
    refine .after .subst fun σ => ?_
    split
    · exact .pure
    · exact .noRule

theorem applied_mild {left right x y : Term} : (applied goal left right x y).Mild := by
  refine .after .subst fun σ => ?_
  split
  · exact .pure
  · exact .noRule

theorem candid_arrowIntro : Candid T .arrowIntro := by
  intro prove prove' hprove ρ name goal emit emit' hemit
  cases goal with
  | subrel lesser greater => exact .refl .noRule
  | related rel left right =>
    refine Upheld.subst fun σ => ?_
    split
    · refine .after .freshConst fun x => .after .freshConst fun y => ?_
      refine .bind applied_mild fun sides => ?_
      exact .after .freshConst fun h => hprove.proveAssuming fun p => hemit _
    · exact .refl .noRule

theorem candid_dependentIntro : Candid T .dependentIntro := by
  intro prove prove' hprove ρ name goal emit emit' hemit
  cases goal with
  | subrel lesser greater => exact .refl .noRule
  | related rel left right =>
    refine Upheld.subst fun σ => ?_
    split
    · refine .after .freshConst fun v => .after .freshConst fun w => .after .freshConst fun e => ?_
      refine .bind applied_mild fun sides => Upheld.subst fun σ => ?_
      exact .bind (.require .noRule) fun inst => hprove.proveAssuming fun p => hemit _
    · exact .refl .noRule

theorem candid_eqCongruence : Candid T .eqCongruence := by
  refine .of_mild eqCongruence (fun _ _ _ _ => rfl) fun goal => ?_
  cases goal with
  | subrel lesser greater => exact .noRule
  | related rel left right =>
    refine .after .subst fun σ => ?_
    split
    · split
      · exact .pure
      · exact .noRule
    · exact .noRule

theorem candid_eqUnify : Candid T .eqUnify := by
  refine .of_mild eqUnify (fun _ _ _ _ => rfl) fun goal => ?_
  cases goal with
  | subrel lesser greater => exact .noRule
  | related rel left right => exact .unify .pure .noRule

theorem candid_reflPlaceholder : Candid T .reflPlaceholder := by
  refine .of_mild reflPlaceholder (fun _ _ _ _ => rfl) fun goal => ?_
  cases goal with
  | subrel lesser greater => exact .noRule
  | related rel left right => exact .unify (.unify .pure .noRule) .noRule

theorem candid_deferUnsolved : Candid T .deferUnsolved := by
  refine .of_mild (deferUnsolved T) (fun _ _ _ _ => rfl) fun goal => ?_
  unfold deferUnsolved
  split
  · exact .after .defer fun _ => .pure
  · exact .noRule

/-! ## Constructors and case analyses -/

theorem fieldGoals_mild {whole : Term} {args : List Term}
    {fields : List (FieldRel × Term × Term)} : (fieldGoals goal whole args fields).Mild := by
  induction fields with
  | nil => exact .pure
  | cons field fields ih => exact .bind (.require .noRule) fun _ => .bind ih fun _ => .pure

theorem candid_relatorIntro : Candid T .relatorIntro := by
  refine .of_mild (relatorIntro T) (fun _ _ _ _ => rfl) fun goal => ?_
  cases goal with
  | subrel lesser greater => exact .noRule
  | related rel left right =>
    refine .after .subst fun σ => ?_
    split
    · refine .bind (.require .noRule) fun scheme => ?_
      split
      · refine .bind (.require .noRule) fun pair => ?_
        exact .bind fieldGoals_mild fun _ => .pure
      · exact .noRule
    · exact .noRule

theorem candid_casesReduce : Candid T .casesReduce := by
  refine .of_mild casesReduce (fun _ _ _ _ => rfl) fun goal => ?_
  cases goal with
  | subrel lesser greater => exact .noRule
  | related rel left right =>
    refine .after .subst fun σ => ?_
    split
    · exact .noRule
    · exact .pure

theorem fieldHypotheses_mild {whole : Term} {args : List Term} {flipped : Bool}
    {fields : List (FieldRel × Term × Term)} :
    (fieldHypotheses goal whole args flipped fields).Mild := by
  induction fields with
  | nil => exact .pure
  | cons field fields ih =>
    exact .bind (.require .noRule) fun _ => .after .freshConst fun _ => .bind ih fun _ => .pure

theorem schemeSplit_mild {rel whole : Term} {args : List Term} {flipped : Bool}
    {arms arms' : List (Arm Term)} {pairs : List CasePair} :
    (schemeSplit goal rel whole args flipped arms arms' pairs).Mild := by
  induction pairs with
  | nil => exact .pure
  | cons pair pairs ih =>
    rw [schemeSplit]
    split
    · dsimp only
      split
      · refine .after .freshConsts fun xs => .after .freshConsts fun ys => ?_
        refine .bind fieldHypotheses_mild fun hyps => ?_
        refine .bind (.require .noRule) fun left => .bind (.require .noRule) fun right => ?_
        exact .bind ih fun _ => .pure
      · exact .noRule
    · exact .noRule

theorem alignedSplit_mild {rel : Term} {arms arms' : List (Arm Term)} :
    (alignedSplit goal rel arms' arms).Mild := by
  induction arms with
  | nil => exact .pure
  | cons arm arms ih =>
    refine .bind (.require .noRule) fun arm' => .after .freshConsts fun xs => ?_
    refine .bind (.require .noRule) fun left => .bind (.require .noRule) fun right => ?_
    exact .bind ih fun _ => .pure

theorem pairsSplit_mild {rel : Term} {pairs : List (Arm Term × Arm Term)} :
    (pairsSplit rel pairs).Mild := by
  induction pairs with
  | nil => exact .pure
  | cons pair pairs ih =>
    refine .after .freshConsts fun xs => .after .freshConsts fun ys => ?_
    split
    · exact .bind ih fun _ => .pure
    · exact ih

theorem split_mild {rel scrutinees : Term} {arms arms' : List (Arm Term)} :
    (Search.split T goal rel scrutinees arms arms').Mild := by
  refine .after .subst fun σ => ?_
  dsimp only
  split
  · exact alignedSplit_mild
  · split
    · exact schemeSplit_mild
    · exact pairsSplit_mild
  · split
    · split
      · exact schemeSplit_mild
      · exact pairsSplit_mild
    · exact pairsSplit_mild
  · exact pairsSplit_mild

theorem proveCases_upheld (hprove : ProverUpheld T prove prove')
    (hemit : ∀ r, Upheld T (emit r) (emit' r)) {cases : List Case} {done : List Proof} :
    Upheld T (proveCases prove emit cases done) (proveCases prove' emit' cases done) := by
  induction cases generalizing done with
  | nil => exact hemit _
  | cons c cases ih => exact hprove.proveAssuming fun p => ih

theorem candid_destruct : Candid T .destruct := by
  intro prove prove' hprove ρ name goal emit emit' hemit
  cases goal with
  | subrel lesser greater => exact .refl .noRule
  | related rel left right =>
    refine Upheld.subst fun σ => ?_
    split
    · refine .after .freshVar fun scrutinees => hprove fun p => ?_
      exact .bind split_mild fun cases => proveCases_upheld hprove hemit
    · exact .refl .noRule

/-! ## Inclusions -/

theorem candid_subrelRefl : Candid T .subrelRefl := by
  refine .of_mild subrelRefl (fun _ _ _ _ => rfl) fun goal => ?_
  cases goal with
  | related rel left right => exact .noRule
  | subrel lesser greater =>
    refine .after .subst fun σ => ?_
    split
    · exact .pure
    · exact .unify .pure .noRule

theorem candid_subrelExtremes : Candid T .subrelExtremes := by
  refine .of_mild subrelExtremes (fun _ _ _ _ => rfl) fun goal => ?_
  cases goal with
  | related rel left right => exact .noRule
  | subrel lesser greater =>
    refine .after .subst fun σ => ?_
    split
    · exact .pure
    · exact .noRule

theorem eachInclusion_upheld {run run' : Nat → Term → Term → Search ρ}
    (hrun : ∀ id lesser greater, Upheld T (run id lesser greater) (run' id lesser greater)) :
    Upheld T (eachInclusion T goal run) (eachInclusion T goal run') := by
  refine tryEach_upheld ?_ (fun best hbest => failBest_upheld hbest .noRule)
    (fun best s hbest => Prevails.fail (.inl hbest)) (by simp)
  rintro ⟨f, id⟩
  exact .after .reserve fun offset => hrun id _ _

theorem candid_subrelFact : Candid T .subrelFact := by
  intro prove prove' _ ρ name goal emit emit' hemit
  cases goal with
  | related rel left right => exact .refl .noRule
  | subrel lesser greater =>
    simp only [Method.run, subrelFact]
    exact eachInclusion_upheld fun id l g => .unify (.unify (hemit _) .noRule) .noRule

theorem candid_subrelTrans : Candid T .subrelTrans := by
  intro prove prove' _ ρ name goal emit emit' hemit
  cases goal with
  | related rel left right => exact .refl .noRule
  | subrel lesser greater =>
    simp only [Method.run, subrelTrans]
    exact eachInclusion_upheld fun id l g => .unify (hemit _) .noRule

theorem argumentInclusions_mild {arguments : List (Term × Term × Variance)} :
    (argumentInclusions goal arguments).Mild := by
  induction arguments with
  | nil => exact .pure
  | cons x rest ih =>
    obtain ⟨a, b, v⟩ := x
    cases v with
    | covariant => exact .bind ih fun _ => .pure
    | contravariant => exact .bind ih fun _ => .pure
    | invariant => exact .unify ih .noRule

theorem candid_subrelStructural : Candid T .subrelStructural := by
  refine .of_mild (subrelStructural T) (fun _ _ _ _ => rfl) fun goal => ?_
  cases goal with
  | related rel left right => exact .noRule
  | subrel lesser greater =>
    refine .after .subst fun σ => ?_
    split
    · exact .pure
    · exact .pure
    · refine .after .freshConst fun v => .after .freshConst fun w => .after .freshConst fun x => ?_
      split
      · exact .pure
      · exact .noRule
    · split
      · refine .bind (.require .noRule) fun variances => ?_
        split
        · exact .bind argumentInclusions_mild fun _ => .pure
        · exact .noRule
      · exact .noRule
    · exact .noRule

/-! ## Candidates -/

theorem factCandidates_total {side : Side} {batch : Batch} {ids : List Nat} :
    (factCandidates T side batch ids).Total := by
  induction ids with
  | nil => exact .pure
  | cons id ids ih =>
    rw [factCandidates]
    split
    · split
      · split
        · exact .bind .reserve fun _ => .bind ih fun _ => .pure
        · exact ih
      · exact ih
    · exact ih

theorem probe_total {side : Side} {head : String} {batch : Batch} :
    (probe T side head batch).Total :=
  .bind .enterLedger fun _ => .bind .subst fun _ => .bind .hyps fun _ =>
    .bind factCandidates_total fun _ => .pure

theorem splitSide_mild {side base : Term} {extra : Nat} :
    (splitSide goal side base extra).Mild := by
  refine .after .subst fun σ => ?_
  split
  · refine .after .freshVars fun args => .bind (.require .noCandidate) fun value => ?_
    exact .unify .pure .noCandidate
  · split
    · exact .noCandidate
    · exact .unify .pure .noCandidate
  · exact .noCandidate

theorem edgeName_total {p : Proof} : (edgeName p).Total := by
  unfold edgeName
  split
  · exact .pure
  · exact .freshConst

variable {k k' : Elimination → Search ρ} {a b : Term} {e : Elimination}

theorem eliminateStraight_upheld (hprove : ProverUpheld T prove prove')
    (hk : ∀ e, Upheld T (k e) (k' e)) :
    Upheld T (eliminateStraight prove goal e a b k) (eliminateStraight prove' goal e a b k') := by
  refine Upheld.subst fun σ => ?_
  split
  · exact hk _
  · refine hprove fun p => .after edgeName_total fun name => Upheld.subst fun σ => ?_
    exact .bind (.require .gap) fun rel => hk _
  · exact hk _
  · exact hk _
  · refine .after .freshVar fun dom => .after .freshVar fun cod => ?_
    exact .unify (hk _) .gap
  · exact .refl .gap

theorem eliminate_upheld (hprove : ProverUpheld T prove prove')
    (hk : ∀ e, Upheld T (k e) (k' e)) :
    Upheld T (eliminate prove goal e a b k) (eliminate prove' goal e a b k') := by
  refine Upheld.subst fun σ => ?_
  split
  · split
    · exact eliminateStraight_upheld hprove hk
    · exact eliminateStraight_upheld hprove hk
    · exact eliminateStraight_upheld hprove fun e => hk _
    · exact eliminateStraight_upheld hprove fun e => hk _
    · exact eliminateStraight_upheld hprove fun e => hk _
    · exact .refl .gap
  · exact eliminateStraight_upheld hprove hk

theorem eliminateAll_upheld (hprove : ProverUpheld T prove prove')
    (hk : ∀ e, Upheld T (k e) (k' e)) {pairs : List (Term × Term)} :
    Upheld T (eliminateAll prove goal k pairs e) (eliminateAll prove' goal k' pairs e) := by
  induction pairs generalizing e with
  | nil => exact hk e
  | cons pair pairs ih => exact eliminate_upheld hprove fun e => ih

/-- A bridge that was not crossed is a gap, unless a limit stood in the way. -/
theorem bridge_upheld (hprove : ProverUpheld T prove prove') {wanted : Term}
    (hk : ∀ e, Upheld T (k e) (k' e)) :
    Upheld T (bridge prove goal wanted e k) (bridge prove' goal wanted e k') := by
  refine Upheld.subst fun σ => ?_
  split
  · exact hk e
  · refine bridging_upheld (fun _ _ hcross => hprove hcross) (fun p => hk _) ?_ ?_
    · intro crossed why hwhy
      split
      · exact .fail hwhy
      · exact .gap
    · rintro crossed why s (hwhy | hspent)
      · rw [if_pos (by simp [hwhy])]
        exact Prevails.fail (.inl hwhy)
      · intro why' t hrun
        split at hrun <;> cases hrun <;> exact .inr hspent

theorem useCandidate_upheld (hprove : ProverUpheld T prove prove')
    (hemit : ∀ r, Upheld T (emit r) (emit' r)) {arity : Nat} {c : Candidate} :
    Upheld T (useCandidate prove goal arity emit c) (useCandidate prove' goal arity emit' c) := by
  cases goal with
  | subrel lesser greater => exact .refl .noRule
  | related rel left right =>
    refine .bind splitSide_mild fun xs => .bind splitSide_mild fun ys => ?_
    exact eliminateAll_upheld hprove fun e => bridge_upheld hprove fun e => hemit _

/-- A limit that one look-up met is not forgotten in the next. -/
theorem tryBatches_prevails {side : Side} {head : String} {arity : Nat}
    (huse : ∀ c, (useCandidate prove goal arity emit c).Mild) {batches : List Batch}
    {best : Failure} (hbest : best.isExhausted = true) {s : State} :
    Prevails T (tryBatches T prove goal side head arity emit batches (some best)) s := by
  induction batches generalizing s best with
  | nil => exact Prevails.fail (.inl hbest)
  | cons batch batches ih =>
    intro why t h
    rw [tryBatches, run_bind] at h
    cases hrun : (probe T side head batch).run s with
    | success found u =>
      simp only [hrun] at h
      exact tryEach_prevails huse (fun best s hbest => ih hbest) hbest why t h
    | overflow l => simp [hrun] at h
    | failure why' u => exact (probe_total s why' u hrun).elim

theorem tryBatches_upheld (hprove : ProverUpheld T prove prove')
    (hemit : ∀ r, Upheld T (emit r) (emit' r)) {side : Side} {head : String} {arity : Nat}
    {batches : List Batch} {best : Option Failure} (hbest : ∀ b ∈ best, b.Mild) :
    Upheld T (tryBatches T prove goal side head arity emit batches best)
      (tryBatches T prove' goal side head arity emit' batches best) := by
  induction batches generalizing best with
  | nil => exact failBest_upheld hbest .noCandidate
  | cons batch batches ih =>
    refine .after probe_total fun found => ?_
    refine tryEach_upheld (fun c => useCandidate_upheld hprove hemit) (fun best hbest => ih hbest)
      (fun best s hbest => ?_) hbest
    exact tryBatches_prevails (fun c => (useCandidate_upheld hprove hemit).mild) hbest

theorem candid_monotone (side : Side) : Candid T (.monotone side) := by
  intro prove prove' hprove ρ name goal emit emit' hemit
  cases goal with
  | subrel lesser greater => exact .refl .noRule
  | related rel left right =>
    refine Upheld.subst fun σ => ?_
    split
    · exact .refl .noRule
    · split
      · exact tryBatches_upheld hprove hemit (by simp)
      · exact .refl .noCandidate

/-! ## The library -/

/-- No method of a library's rules hides a limit. -/
theorem Theory.Library.candid (h : T.Library) : ∀ rule ∈ T.rules, Candid T rule.method := by
  intro rule hrule
  rcases h rule hrule with hstandard | ⟨r, rfl⟩
  · simp only [Rule.standard, List.mem_cons, List.not_mem_nil, or_false] at hstandard
    rcases hstandard with rfl | rfl | rfl | rfl | rfl | rfl | rfl | rfl | rfl | rfl | rfl | rfl |
      rfl | rfl | rfl | rfl | rfl | rfl
    · exact candid_top
    · exact candid_eqRefl
    · exact candid_flipIntro
    · exact candid_arrowIntro
    · exact candid_dependentIntro
    · exact candid_casesReduce
    · exact candid_subrelRefl
    · exact candid_subrelExtremes
    · exact candid_subrelFact
    · exact candid_subrelStructural
    · exact candid_subrelTrans
    · exact candid_destruct
    · exact candid_monotone .left
    · exact candid_monotone .right
    · exact candid_eqCongruence
    · exact candid_eqUnify
    · exact candid_reflPlaceholder
    · exact candid_deferUnsolved
  · exact candid_relatorIntro

end Monotonicity
