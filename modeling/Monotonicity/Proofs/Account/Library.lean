import Monotonicity.Proofs.Account.Solver
import Monotonicity.Proofs.Calculus.Replay

/-!
# The rules of a library keep accounts

Most rules apply no other rules: they reduce a goal to subgoals, and their premises, if any, are
leaves. The others get proofs from the prover, on the way down through an arrow, along an edge,
across a bridge, for scrutinees and for cases. Each of these proofs becomes a premise once, behind
those found before it, and the subgoals come behind all of them. So the steps that are open when a
rule is done are those of its premises in order.
-/

namespace Monotonicity

open Search Proof

variable {T : Theory} {ρ : Type} {o : List Nat} {d : Nat} {goal : Goal} {prove prove' : Prover}
  {emit emit' : Reduction → Search ρ} {S : ρ → List Nat → State → Prop}

/-- The premises have no steps. -/
def Reduction.Plain (r : Reduction) : Prop := ∀ d, levelsAll d r.premises = []

/-- A method that applies no rules itself. -/
theorem Method.Accounts.of_quiet {method : Method} (reduce : Goal → Search Reduction)
    (hmethod : ∀ {ρ : Type} prove rule goal (emit : Reduction → Search ρ),
      method.run T prove rule goal emit = reduce goal >>= emit)
    (hreduce : ∀ goal, Quiet T (reduce goal) Reduction.Plain) : method.Accounts T := by
  intro d prove prove' _ ρ o rule goal emit emit' S hemit
  rw [hmethod, hmethod]
  refine .bind (hreduce goal) fun r hr => ?_
  have hr := hemit r
  rwa [‹r.Plain›, List.append_nil] at hr

/-! ## Introduction and last resorts -/

theorem accounts_top : Method.top.Accounts T := by
  intro d prove prove' _ ρ o rule goal emit emit' S hemit
  have htop : Settles T o d (emit {}) (emit' {}) S := by simpa using hemit {}
  exact htop

theorem accounts_eqRefl : Method.eqRefl.Accounts T := by
  refine .of_quiet eqRefl (fun _ _ _ _ => rfl) fun goal => ?_
  cases goal with
  | subrel lesser greater => exact .noRule _
  | related rel left right => exact .bind .subst fun σ _ => .ite (.pure fun _ => rfl) (.noRule _)

theorem accounts_flipIntro : Method.flipIntro.Accounts T := by
  refine .of_quiet flipIntro (fun _ _ _ _ => rfl) fun goal => ?_
  cases goal with
  | subrel lesser greater => exact .noRule _
  | related rel left right =>
    refine .bind .subst fun σ _ => ?_
    split
    · exact .pure fun _ => rfl
    · exact .noRule _

theorem applied_quiet {left right x y : Term} : Quiet T (applied goal left right x y) := by
  refine .bind .subst fun σ _ => ?_
  split
  · exact .pure trivial
  · exact .noRule _

/-- The only premise of an introduction is the proof of the body. -/
theorem emit_single (hemit : ∀ r, Settles T (o ++ levelsAll (d + 1) r.premises) d (emit r)
    (emit' r) S) (p : Proof) :
    Settles T (o ++ p.levels (d + 1)) d (emit { premises := [p] }) (emit' { premises := [p] })
      S := by
  rw [← levelsAll_singleton]
  exact hemit { premises := [p] }

theorem accounts_arrowIntro : Method.arrowIntro.Accounts T := by
  intro d prove prove' hprove ρ o rule goal emit emit' S hemit
  cases goal with
  | subrel lesser greater => exact .of_quiet (.noRule _)
  | related rel left right =>
    refine .bind .subst fun σ _ => ?_
    split
    · refine .bind (.freshConst _) fun x _ => .bind (.freshConst _) fun y _ => ?_
      refine .bind applied_quiet fun sides _ => .bind (.freshConst _) fun h _ => ?_
      exact hprove.proveAssuming (emit_single hemit)
    · exact .of_quiet (.noRule _)

theorem accounts_dependentIntro : Method.dependentIntro.Accounts T := by
  intro d prove prove' hprove ρ o rule goal emit emit' S hemit
  cases goal with
  | subrel lesser greater => exact .of_quiet (.noRule _)
  | related rel left right =>
    refine .bind .subst fun σ _ => ?_
    split
    · refine .bind (.freshConst _) fun v _ => .bind (.freshConst _) fun w _ => ?_
      refine .bind (.freshConst _) fun e _ => .bind applied_quiet fun sides _ => ?_
      refine .bind .subst fun σ _ => ?_
      refine .bind (.require (fun _ _ => trivial) (.noRule _)) fun inst _ => ?_
      exact hprove.proveAssuming (emit_single hemit)
    · exact .of_quiet (.noRule _)

theorem accounts_eqCongruence : Method.eqCongruence.Accounts T := by
  refine .of_quiet eqCongruence (fun _ _ _ _ => rfl) fun goal => ?_
  cases goal with
  | subrel lesser greater => exact .noRule _
  | related rel left right =>
    refine .bind .subst fun σ _ => ?_
    split
    · exact .ite (.pure fun _ => rfl) (.noRule _)
    · exact .noRule _

theorem accounts_eqUnify : Method.eqUnify.Accounts T := by
  refine .of_quiet eqUnify (fun _ _ _ _ => rfl) fun goal => ?_
  cases goal with
  | subrel lesser greater => exact .noRule _
  | related rel left right => exact .ifUnify (.pure fun _ => rfl) (.noRule _)

theorem accounts_reflPlaceholder : Method.reflPlaceholder.Accounts T := by
  refine .of_quiet reflPlaceholder (fun _ _ _ _ => rfl) fun goal => ?_
  cases goal with
  | subrel lesser greater => exact .noRule _
  | related rel left right =>
    exact .ifUnify (.ifUnify (.pure fun _ => rfl) (.noRule _)) (.noRule _)

/-- An obligation that is put off is a leaf. -/
theorem accounts_deferUnsolved : Method.deferUnsolved.Accounts T := by
  refine .of_quiet (deferUnsolved T) (fun _ _ _ _ => rfl) fun goal => .ite ?_ (.noRule _)
  refine .bind (.defer goal) fun p hp => .pure fun d => ?_
  rw [levelsAll_singleton, hp]

/-! ## Constructors and case analyses -/

theorem fieldGoals_quiet {whole : Term} {args : List Term}
    {fields : List (FieldRel × Term × Term)} : Quiet T (fieldGoals goal whole args fields) := by
  induction fields with
  | nil => exact .pure trivial
  | cons field fields ih =>
    exact .bind (.require (fun _ _ => trivial) (.noRule _)) fun _ _ =>
      .bind ih fun _ _ => .pure trivial

theorem accounts_relatorIntro : Method.relatorIntro.Accounts T := by
  refine .of_quiet (relatorIntro T) (fun _ _ _ _ => rfl) fun goal => ?_
  cases goal with
  | subrel lesser greater => exact .noRule _
  | related rel left right =>
    refine .bind .subst fun σ _ => ?_
    split
    · refine .bind (.require (fun _ _ => trivial) (.noRule _)) fun scheme _ => ?_
      split
      · refine .bind (.require (fun _ _ => trivial) (.noRule _)) fun pair _ => ?_
        exact .bind fieldGoals_quiet fun _ _ => .pure fun _ => rfl
      · exact .noRule _
    · exact .noRule _

theorem accounts_casesReduce : Method.casesReduce.Accounts T := by
  refine .of_quiet casesReduce (fun _ _ _ _ => rfl) fun goal => ?_
  cases goal with
  | subrel lesser greater => exact .noRule _
  | related rel left right =>
    refine .bind .subst fun σ _ => ?_
    split
    · exact .noRule _
    · exact .pure fun _ => rfl

theorem fieldHypotheses_quiet {whole : Term} {args : List Term} {flipped : Bool}
    {fields : List (FieldRel × Term × Term)} :
    Quiet T (fieldHypotheses goal whole args flipped fields) := by
  induction fields with
  | nil => exact .pure trivial
  | cons field fields ih =>
    exact .bind (.require (fun _ _ => trivial) (.noRule _)) fun _ _ =>
      .bind (.freshConst _) fun _ _ => .bind ih fun _ _ => .pure trivial

theorem schemeSplit_quiet {rel whole : Term} {args : List Term} {flipped : Bool}
    {arms arms' : List (Arm Term)} {pairs : List CasePair} :
    Quiet T (schemeSplit goal rel whole args flipped arms arms' pairs) := by
  induction pairs with
  | nil => exact .pure trivial
  | cons pair pairs ih =>
    rw [schemeSplit]
    split
    · refine .ite ?_ (.noRule _)
      refine .bind (.freshConsts _ _) fun xs _ => .bind (.freshConsts _ _) fun ys _ => ?_
      refine .bind fieldHypotheses_quiet fun hyps _ => ?_
      refine .bind (.require (fun _ _ => trivial) (.noRule _)) fun left _ => ?_
      refine .bind (.require (fun _ _ => trivial) (.noRule _)) fun right _ => ?_
      exact .bind ih fun _ _ => .pure trivial
    · exact .noRule _

theorem alignedSplit_quiet {rel : Term} {arms arms' : List (Arm Term)} :
    Quiet T (alignedSplit goal rel arms' arms) := by
  induction arms with
  | nil => exact .pure trivial
  | cons arm arms ih =>
    refine .bind (.require (fun _ _ => trivial) (.noRule _)) fun arm' _ => ?_
    refine .bind (.freshConsts _ _) fun xs _ => ?_
    refine .bind (.require (fun _ _ => trivial) (.noRule _)) fun left _ => ?_
    refine .bind (.require (fun _ _ => trivial) (.noRule _)) fun right _ => ?_
    exact .bind ih fun _ _ => .pure trivial

theorem pairsSplit_quiet {rel : Term} {pairs : List (Arm Term × Arm Term)} :
    Quiet T (pairsSplit rel pairs) := by
  induction pairs with
  | nil => exact .pure trivial
  | cons pair pairs ih =>
    refine .bind (.freshConsts _ _) fun xs _ => .bind (.freshConsts _ _) fun ys _ => ?_
    split
    · exact .bind ih fun _ _ => .pure trivial
    · exact ih

theorem split_quiet {rel scrutinees : Term} {arms arms' : List (Arm Term)} :
    Quiet T (Search.split T goal rel scrutinees arms arms') := by
  refine .bind .subst fun σ _ => ?_
  dsimp only
  split
  · exact alignedSplit_quiet
  · split
    · exact schemeSplit_quiet
    · exact pairsSplit_quiet
  · split
    · split
      · exact schemeSplit_quiet
      · exact pairsSplit_quiet
    · exact pairsSplit_quiet
  · exact pairsSplit_quiet

theorem proveCases_settles (hprove : Prover.Accounts T d prove prove')
    (hemit : ∀ r, Settles T (o ++ levelsAll (d + 1) r.premises) d (emit r) (emit' r) S)
    {cases : List Case} {done : List Proof} :
    Settles T (o ++ levelsAll (d + 1) done) d (proveCases prove emit cases done)
      (proveCases prove' emit' cases done) S := by
  induction cases generalizing done with
  | nil => exact hemit { premises := done }
  | cons c cases ih =>
    refine hprove.proveAssuming fun p => ?_
    rw [← append_levelsAll_snoc]
    exact ih

/-- The proof for the scrutinees is the first premise, and those for the cases follow it. -/
theorem accounts_destruct : Method.destruct.Accounts T := by
  intro d prove prove' hprove ρ o rule goal emit emit' S hemit
  cases goal with
  | subrel lesser greater => exact .of_quiet (.noRule _)
  | related rel left right =>
    refine .bind .subst fun σ _ => ?_
    split
    · refine .bind .freshVar fun scrutinees _ => hprove fun p => ?_
      rw [← levelsAll_singleton]
      exact .bind split_quiet fun cases _ => proveCases_settles hprove hemit
    · exact .of_quiet (.noRule _)

/-! ## Inclusions -/

theorem accounts_subrelRefl : Method.subrelRefl.Accounts T := by
  refine .of_quiet subrelRefl (fun _ _ _ _ => rfl) fun goal => ?_
  cases goal with
  | related rel left right => exact .noRule _
  | subrel lesser greater =>
    refine .bind .subst fun σ _ => .ite (.pure fun _ => rfl) ?_
    exact .ifUnify (.pure fun _ => rfl) (.noRule _)

theorem accounts_subrelExtremes : Method.subrelExtremes.Accounts T := by
  refine .of_quiet subrelExtremes (fun _ _ _ _ => rfl) fun goal => ?_
  cases goal with
  | related rel left right => exact .noRule _
  | subrel lesser greater => exact .bind .subst fun σ _ => .ite (.pure fun _ => rfl) (.noRule _)

theorem eachInclusion_settles {run run' : Nat → Term → Term → Search ρ}
    (hrun : ∀ id lesser greater, Settles T o d (run id lesser greater) (run' id lesser greater) S) :
    Settles T o d (eachInclusion T goal run) (eachInclusion T goal run') S := by
  refine .tryEach ?_ fun best => .of_quiet (.failBest best (.noRule _))
  rintro ⟨f, id⟩ _
  exact .bind (.reserve _) fun offset _ => hrun id _ _

/-- A registered inclusion is a leaf. -/
theorem emit_inclusion (hemit : ∀ r, Settles T (o ++ levelsAll (d + 1) r.premises) d (emit r)
    (emit' r) S) (id : Nat) (subgoals : List Goal) :
    Settles T o d (emit { premises := [.inclusion id], subgoals })
      (emit' { premises := [.inclusion id], subgoals }) S := by
  simpa [levels] using hemit { premises := [.inclusion id], subgoals }

theorem accounts_subrelFact : Method.subrelFact.Accounts T := by
  intro d prove prove' _ ρ o rule goal emit emit' S hemit
  cases goal with
  | related rel left right => exact .of_quiet (.noRule _)
  | subrel lesser greater =>
    simp only [Method.run, subrelFact]
    refine eachInclusion_settles fun id l g => ?_
    exact .ifUnify (.ifUnify (emit_inclusion hemit id []) (.of_quiet (.noRule _)))
      (.of_quiet (.noRule _))

theorem accounts_subrelTrans : Method.subrelTrans.Accounts T := by
  intro d prove prove' _ ρ o rule goal emit emit' S hemit
  cases goal with
  | related rel left right => exact .of_quiet (.noRule _)
  | subrel lesser greater =>
    simp only [Method.run, subrelTrans]
    refine eachInclusion_settles fun id l g => ?_
    exact .ifUnify (emit_inclusion hemit id _) (.of_quiet (.noRule _))

theorem argumentInclusions_quiet {arguments : List (Term × Term × Variance)} :
    Quiet T (argumentInclusions goal arguments) := by
  induction arguments with
  | nil => exact .pure trivial
  | cons x rest ih =>
    obtain ⟨a, b, v⟩ := x
    cases v with
    | covariant => exact .bind ih fun _ _ => .pure trivial
    | contravariant => exact .bind ih fun _ _ => .pure trivial
    | invariant => exact .ifUnify ih (.noRule _)

theorem accounts_subrelStructural : Method.subrelStructural.Accounts T := by
  refine .of_quiet (subrelStructural T) (fun _ _ _ _ => rfl) fun goal => ?_
  cases goal with
  | related rel left right => exact .noRule _
  | subrel lesser greater =>
    refine .bind .subst fun σ _ => ?_
    split
    · exact .pure fun _ => rfl
    · exact .pure fun _ => rfl
    · refine .bind (.freshConst _) fun v _ => .bind (.freshConst _) fun w _ => ?_
      refine .bind (.freshConst _) fun x _ => ?_
      split
      · exact .pure fun _ => rfl
      · exact .noRule _
    · refine .ite ?_ (.noRule _)
      refine .bind (.require (fun _ _ => trivial) (.noRule _)) fun variances _ => ?_
      exact .ite (.bind argumentInclusions_quiet fun _ _ => .pure fun _ => rfl) (.noRule _)
    · exact .noRule _

/-! ## Candidates -/

theorem factCandidates_quiet {side : Side} {batch : Batch} {ids : List Nat} :
    Quiet T (factCandidates T side batch ids) := by
  induction ids with
  | nil => exact .pure trivial
  | cons id ids ih =>
    rw [factCandidates]
    split
    · split
      · exact .ite (.bind (.reserve _) fun _ _ => .bind ih fun _ _ => .pure trivial) ih
      · exact ih
    · exact ih

theorem probe_quiet {side : Side} {head : String} {batch : Batch} :
    Quiet T (probe T side head batch) := by
  refine .bind (.enterLedger (fun _ => rfl) (fun _ => rfl) (fun _ => id) fun _ => Nat.le_refl _)
    fun _ _ => ?_
  exact .bind .subst fun _ _ => .bind .hyps fun _ _ => .bind factCandidates_quiet fun _ _ =>
    .pure trivial

theorem splitSide_quiet {side base : Term} {extra : Nat} :
    Quiet T (splitSide goal side base extra) := by
  refine .bind .subst fun σ _ => ?_
  split
  · refine .bind (.freshVars _) fun args _ => ?_
    refine .bind (.require (fun _ _ => trivial) (.noCandidate _)) fun value _ => ?_
    exact .ifUnify (.pure trivial) (.noCandidate _)
  · exact .ite (.noCandidate _) (.ifUnify (.pure trivial) (.noCandidate _))
  · exact .noCandidate _

theorem edgeName_quiet {p : Proof} : Quiet T (edgeName p) := by
  unfold edgeName
  split
  · exact .pure trivial
  · exact .freshConst _

section Elimination

variable {k k' : Elimination → Search ρ} {a b : Term} {e : Elimination}

/-- The proof of an edge becomes a premise behind those before it. -/
theorem eliminateStraight_settles (hprove : Prover.Accounts T d prove prove')
    (hk : ∀ e, Settles T (o ++ levelsAll (d + 1) e.premises) d (k e) (k' e) S) :
    Settles T (o ++ levelsAll (d + 1) e.premises) d (eliminateStraight prove goal e a b k)
      (eliminateStraight prove' goal e a b k') S := by
  refine .bind .subst fun σ _ => ?_
  split
  · exact hk (e.owing _ _)
  · refine hprove fun p => .bind edgeName_quiet fun name _ => .bind .subst fun σ _ => ?_
    refine .bind (.require (fun _ _ => trivial) (.gap _)) fun rel _ => ?_
    rw [← append_levelsAll_snoc]
    exact hk (e.via rel p)
  · exact hk (e.owing _ _)
  · exact hk e
  · refine .bind .freshVar fun dom _ => .bind .freshVar fun cod _ => ?_
    exact .ifUnify (hk (e.owing _ _)) (.of_quiet (.gap _))
  · exact .of_quiet (.gap _)

theorem eliminate_settles (hprove : Prover.Accounts T d prove prove')
    (hk : ∀ e, Settles T (o ++ levelsAll (d + 1) e.premises) d (k e) (k' e) S) :
    Settles T (o ++ levelsAll (d + 1) e.premises) d (eliminate prove goal e a b k)
      (eliminate prove' goal e a b k') S := by
  have hstraight : ∀ rel a b, Settles T (o ++ levelsAll (d + 1) e.premises) d
      (eliminateStraight prove goal { e with rel } a b k)
      (eliminateStraight prove' goal { e with rel } a b k') S :=
    fun rel a b => eliminateStraight_settles (e := { e with rel }) hprove hk
  have hflipped : ∀ rel a b, Settles T (o ++ levelsAll (d + 1) e.premises) d
      (eliminateStraight prove goal { e with rel } a b fun e => k { e with rel := e.rel.flip })
      (eliminateStraight prove' goal { e with rel } a b fun e => k' { e with rel := e.rel.flip })
      S :=
    fun rel a b => eliminateStraight_settles (e := { e with rel }) hprove fun e =>
      hk { e with rel := e.rel.flip }
  refine .bind .subst fun σ _ => ?_
  split
  · split
    · exact hstraight _ a b
    · exact hstraight _ a b
    · exact hflipped _ b a
    · exact hflipped _ b a
    · exact hflipped _ b a
    · exact .of_quiet (.gap _)
  · exact hstraight e.rel a b

theorem eliminateAll_settles (hprove : Prover.Accounts T d prove prove')
    (hk : ∀ e, Settles T (o ++ levelsAll (d + 1) e.premises) d (k e) (k' e) S)
    {pairs : List (Term × Term)} :
    Settles T (o ++ levelsAll (d + 1) e.premises) d (eliminateAll prove goal k pairs e)
      (eliminateAll prove' goal k' pairs e) S := by
  induction pairs generalizing e with
  | nil => exact hk e
  | cons pair pairs ih => exact eliminate_settles hprove fun e => ih

/-- The proof of the final inclusion is the last premise before the subgoals. -/
theorem bridge_settles (hprove : Prover.Accounts T d prove prove') {wanted : Term}
    (hk : ∀ e, Settles T (o ++ levelsAll (d + 1) e.premises) d (k e) (k' e) S) :
    Settles T (o ++ levelsAll (d + 1) e.premises) d (bridge prove goal wanted e k)
      (bridge prove' goal wanted e k') S := by
  refine .bind .subst fun σ _ => .ite (fun _ => hk e) fun _ => hprove.bridging (fun p => ?_) ?_
  · rw [← append_levelsAll_snoc]
    exact hk (e.via wanted p)
  · exact fun crossed why => .ite (fun _ => .of_quiet (.fail _)) fun _ => .of_quiet (.gap _)

end Elimination

/-- A candidate is a leaf. -/
theorem Candidate.levels_proof (c : Candidate) (d : Nat) : c.proof.levels d = [] := by
  unfold Candidate.proof
  split <;> rfl

theorem useCandidate_settles (hprove : Prover.Accounts T d prove prove')
    (hemit : ∀ r, Settles T (o ++ levelsAll (d + 1) r.premises) d (emit r) (emit' r) S)
    {arity : Nat} {c : Candidate} :
    Settles T o d (useCandidate prove goal arity emit c) (useCandidate prove' goal arity emit' c)
      S := by
  cases goal with
  | subrel lesser greater => exact .of_quiet (.noRule _)
  | related rel left right =>
    refine .bind splitSide_quiet fun xs _ => .bind splitSide_quiet fun ys _ => ?_
    have hleaf : o ++ levelsAll (d + 1) [c.proof] = o := by
      rw [levelsAll_singleton, c.levels_proof, List.append_nil]
    rw [← hleaf]
    exact eliminateAll_settles (e := { rel := c.rel, premises := [c.proof] }) hprove fun e =>
      bridge_settles hprove fun e => hemit { premises := e.premises, subgoals := e.subgoals }

theorem tryBatches_settles (hprove : Prover.Accounts T d prove prove')
    (hemit : ∀ r, Settles T (o ++ levelsAll (d + 1) r.premises) d (emit r) (emit' r) S)
    {side : Side} {head : String} {arity : Nat} {batches : List Batch} {best : Option Failure} :
    Settles T o d (tryBatches T prove goal side head arity emit batches best)
      (tryBatches T prove' goal side head arity emit' batches best) S := by
  induction batches generalizing best with
  | nil => exact .of_quiet (.failBest best (.noCandidate _))
  | cons batch batches ih =>
    exact .bind probe_quiet fun found _ =>
      .tryEach (fun c _ => useCandidate_settles hprove hemit) fun best => ih

theorem accounts_monotone (side : Side) : (Method.monotone side).Accounts T := by
  intro d prove prove' hprove ρ o rule goal emit emit' S hemit
  cases goal with
  | subrel lesser greater => exact .of_quiet (.noRule _)
  | related rel left right =>
    refine .bind .subst fun σ _ => .ite (fun _ => .of_quiet (.noRule _)) fun _ => ?_
    split
    · exact tryBatches_settles hprove hemit
    · exact .of_quiet (.noCandidate _)

/-! ## The library -/

/-- All methods of a library's rules keep accounts. -/
theorem Theory.Library.accounts (h : T.Library) : ∀ rule ∈ T.rules, rule.method.Accounts T := by
  intro rule hrule
  rcases h rule hrule with hstandard | ⟨r, rfl⟩
  · simp only [Rule.standard, List.mem_cons, List.not_mem_nil, or_false] at hstandard
    rcases hstandard with rfl | rfl | rfl | rfl | rfl | rfl | rfl | rfl | rfl | rfl | rfl | rfl |
      rfl | rfl | rfl | rfl | rfl | rfl
    · exact accounts_top
    · exact accounts_eqRefl
    · exact accounts_flipIntro
    · exact accounts_arrowIntro
    · exact accounts_dependentIntro
    · exact accounts_casesReduce
    · exact accounts_subrelRefl
    · exact accounts_subrelExtremes
    · exact accounts_subrelFact
    · exact accounts_subrelStructural
    · exact accounts_subrelTrans
    · exact accounts_destruct
    · exact accounts_monotone .left
    · exact accounts_monotone .right
    · exact accounts_eqCongruence
    · exact accounts_eqUnify
    · exact accounts_reflPlaceholder
    · exact accounts_deferUnsolved
  · exact accounts_relatorIntro

/-- The solver of a library keeps accounts, and below the levels that its limits allow nothing is
asked. -/
theorem Theory.Library.solve_accounts (h : T.Library) (deep : Prover) {levels : Nat}
    (hlevels : T.limits.maxDepth < levels) :
    Prover.Accounts T 0 (solve T T.limits.maxDepth) (solveLevels T deep levels) :=
  Monotonicity.solve_accounts h.accounts deep (Nat.zero_add _) hlevels

end Monotonicity
