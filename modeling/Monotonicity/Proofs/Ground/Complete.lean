import Monotonicity.Proofs.Ground.Provable
import Monotonicity.Proofs.Order.Complete

/-!
# What is provable is found

A solver with the standard rules proves every goal in simple terms that has a derivation, unless a
limit stops it (`Provable.sure`). As for inclusions, no goal in progress may have a derivation of at
most the height in question. That a search has more hypotheses in scope than the goals in progress
had does not matter: those added since are about constants that these goals do not know.
-/

namespace Monotonicity

open Search

/-! ## Looking up -/

theorem mem_insert_of_mem {c d : Candidate} {cs : List Candidate} (h : c = d ∨ c ∈ cs) :
    c ∈ Candidate.insert d cs := by
  induction cs with
  | nil => simpa [Candidate.insert] using h
  | cons e rest ih =>
    unfold Candidate.insert
    split
    · simpa using h
    · rw [List.mem_cons] at h ⊢
      rcases h with h | h | h
      · exact .inr (ih (.inl h))
      · exact .inl h
      · exact .inr (ih (.inr h))

/-- No candidate is lost by putting them in order. -/
theorem mem_arrange {batch : Batch} {c : Candidate} {cs : List Candidate} (h : c ∈ cs) :
    c ∈ batch.arrange cs := by
  cases batch with
  | exact k => exact h
  | parameters p k =>
    induction cs with
    | nil => exact h
    | cons d rest ih => exact mem_insert_of_mem ((List.mem_cons.1 h).imp_right ih)

namespace Search

variable {T : Theory} {ρ : Type} {s : State} {goal : Goal} {batch : Batch} {f g : String}
  {as bs xs : List Term} {rel left right : Term}

/-- A fact without placeholders is among the candidates as it stands. -/
theorem factCandidates_finds {side : Side} {id : Nat} {fact : Fact} {ids : List Nat}
    (hid : id ∈ ids) (hfact : T.registry.facts[id]? = some fact)
    (hside : fact.side side = .app f as) (hcovers : batch.covers as.length = true)
    (hground : fact.rel.ground = true ∧ fact.left.ground = true ∧ fact.right.ground = true) :
    (factCandidates T side batch ids).Gets s fun cs _ => ∃ source witness,
      ⟨source, fact.rel, fact.left, fact.right, witness, as.length⟩ ∈ cs := by
  induction ids generalizing s with
  | nil => cases hid
  | cons i rest ih =>
    by_cases hi : i = id
    · subst hi
      simp only [factCandidates, hfact, hside, hcovers, if_true]
      refine reserve_gets.bind fun offset t _ _ => ?_
      refine (factCandidates_gets .empty [] f).bind fun cs u _ _ => .pure ?_
      simp only [Fact.rename, Term.rename_of_ground hground.1, Term.rename_of_ground hground.2.1,
        Term.rename_of_ground hground.2.2]
      exact ⟨_, _, List.mem_cons_self⟩
    · have hrest := fun t => ih (s := t) ((List.mem_cons.1 hid).resolve_left (Ne.symm hi))
      unfold factCandidates
      split
      · split
        · split
          · refine reserve_gets.bind fun offset t _ _ => (hrest t).bind fun cs u _ h => .pure ?_
            obtain ⟨source, witness, hmem⟩ := h
            exact ⟨source, witness, List.mem_cons_of_mem _ hmem⟩
          · exact hrest s
        · exact hrest s
      · exact hrest s

/-- A fact without placeholders that a look-up goes through is found as it stands. -/
theorem probe_finds_fact {id : Nat} {fact : Fact} (hid : id ∈ T.registry.lookup .left f batch)
    (hfact : T.registry.facts[id]? = some fact) (hleft : fact.left = .app f as)
    (hcovers : batch.covers as.length = true)
    (hground : fact.rel.ground = true ∧ fact.left.ground = true ∧ fact.right.ground = true) :
    (probe T .left f batch).Gets s fun cs _ => ∃ source witness,
      ⟨source, fact.rel, .app f as, fact.right, witness, as.length⟩ ∈ cs := by
  refine (count_gets fun n => by simp [Stats.le_def]).bind fun _ t _ ht => ?_
  refine Gets.subst (Gets.hyps ?_)
  have hside : fact.side .left = .app f as := hleft
  have hfinds := factCandidates_finds (T := T) (s := t) hid hfact hside hcovers hground
  rw [hleft] at hfinds
  have hadd {ids : List Nat} {assumed : List Candidate}
      (h : (factCandidates T .left batch ids).Gets t fun cs _ => ∃ source witness,
        ⟨source, fact.rel, .app f as, fact.right, witness, as.length⟩ ∈ cs) :
      (factCandidates T .left batch ids >>= fun facts =>
        pure (batch.arrange assumed ++ batch.arrange facts)).Gets t fun cs _ =>
          ∃ source witness, ⟨source, fact.rel, .app f as, fact.right, witness, as.length⟩ ∈ cs := by
    refine h.bind fun facts u _ hu => .pure ?_
    obtain ⟨source, witness, hmem⟩ := hu
    exact ⟨source, witness, List.mem_append_right _ (mem_arrange hmem)⟩
  cases batch with
  | exact k => exact hadd hfinds
  | parameters p k => exact hadd hfinds

/-- What a look-up is said to find it finds. -/
theorem probe_finds (hreg : T.registry.Simple) (hhyps : ∀ h ∈ s.hyps, h.Settled s.minted)
    (h : T.registry.Offers s.hyps batch rel (.app f as) right) :
    (probe T .left f batch).Gets s fun cs _ => ∃ source witness,
      ⟨source, rel, .app f as, right, witness, as.length⟩ ∈ cs := by
  cases h with
  | hypothesis hh hleft hright hcovers =>
    rename_i h
    subst hright
    refine (count_gets fun n => by simp [Stats.le_def]).bind fun _ t _ ht => ?_
    refine Gets.subst (Gets.hyps ?_)
    rw [ht.1.subst, ht.1.hyps]
    refine (factCandidates_gets .empty [] f).bind fun facts u _ _ => .pure ?_
    obtain ⟨i, hi⟩ := List.mem_iff_getElem?.1 hh
    refine ⟨.hypothesis i, h.witness, List.mem_append_left _ (mem_arrange ?_)⟩
    refine List.mem_filterMap.2 ⟨(h, i), List.mem_zipIdx_iff_getElem?.2 hi, ?_⟩
    have hwalk : s.subst.walk (.app f as) = .app f as :=
      (Term.leaves_of_ground (hleft ▸ (hhyps h hh).left.ground) _).walk_eq
    simp only [Side.pick, hleft, hwalk, hcovers, and_self, if_true]
  | fact hid hfact hleft hright hcovers =>
    subst hright
    obtain ⟨hrel, hl, hr⟩ := hreg.facts _ (Array.mem_of_getElem? hfact)
    exact probe_finds_fact hid hfact hleft hcovers ⟨hrel.ground, hl.ground, hr.ground⟩

/-! ## Lining a candidate up -/

theorem splitSide_gives (h : (Term.app f (as ++ xs)).ground = true) :
    (splitSide goal (.app f (as ++ xs)) (.app f as) xs.length).Gives s xs := by
  have hbase : (Term.app f as).ground = true := by
    rw [Term.ground_app] at h ⊢
    exact fun t ht => h t (List.mem_append_left _ ht)
  have hkeep : (as ++ xs).length - xs.length = as.length := by simp
  obtain ⟨t, hrun, ht⟩ := unify_gives (s := s) hbase
  refine ⟨t, ?_, ht⟩
  have hwalk := (Term.leaves_of_ground h s.subst).walk_eq
  rw [splitSide, run_bind]
  simp only [Search.subst, hwalk, hkeep, List.take_left', List.drop_left']
  rw [if_neg (by simp), run_bind, hrun]
  rfl

/-! ## Eliminating arguments -/

variable {σ : Subst} {i j : Nat} {prove : Prover} {e : Elimination} {a b reached wanted : Term}
  {pairs : List (Term × Term)} {owed : List Goal} {k : Elimination → Search ρ}

/-- A plain relation takes a pair without a search. -/
theorem eliminateStraight_run (hrel : e.rel.PlainGround)
    (h : Straight σ i e.rel a b j reached [] owed) :
    (eliminateStraight prove goal e a b k).run s =
      (k ⟨reached, e.premises, e.subgoals ++ owed⟩).run s := by
  have hview := (Term.leaves_of_ground hrel.ground s.subst).view_eq
  rw [eliminateStraight, run_bind]
  cases h with
  | arrow h => simp only [Search.subst, hview, h, Elimination.owing]
  | equality h => simp only [Search.subst, hview, h, Elimination.owing]
  | top h => simp only [Search.subst, hview, h, List.append_nil]

theorem eliminate_run (hrel : e.rel.PlainGround) (h : Passes σ i e.rel a b j reached [] owed) :
    (eliminate prove goal e a b k).run s =
      (k ⟨reached, e.premises, e.subgoals ++ owed⟩).run s := by
  have hseen {t : Term} (ht : t.PlainGround) : s.subst.view t = t.view :=
    (Term.leaves_of_ground ht.ground s.subst).view_eq
  rw [eliminate, run_bind]
  cases h with
  | straight h =>
    have hrun : (eliminateStraight prove goal e a b k).run s = _ := eliminateStraight_run hrel h
    cases h with
    | arrow h => simpa only [Search.subst, hseen hrel, h] using hrun
    | equality h => simpa only [Search.subst, hseen hrel, h] using hrun
    | top h => simpa only [Search.subst, hseen hrel, h] using hrun
  | symmetric hview hinner h =>
    rename_i inner
    have hplain : inner.PlainGround := hrel.of_mem_parts (by simp [hview, View.parts])
    have hrun : (eliminateStraight prove goal { e with rel := inner } a b k).run s = _ :=
      eliminateStraight_run hplain h
    rcases hinner with hinner | hinner
    · simpa only [Search.subst, hseen hrel, hview, hseen hplain, hinner] using hrun
    · simpa only [Search.subst, hseen hrel, hview, hseen hplain, hinner] using hrun
  | converse hview hinner h =>
    rename_i inner _
    have hplain : inner.PlainGround := hrel.of_mem_parts (by simp [hview, View.parts])
    have hrun : (eliminateStraight prove goal { e with rel := inner } b a fun e =>
        k { e with rel := e.rel.flip }).run s = _ := eliminateStraight_run hplain h
    cases hv : inner.view with
    | arrow dom cod => simpa only [Search.subst, hseen hrel, hview, hseen hplain, hv] using hrun
    | dependent edge family => exact (hplain.plain.view_ne_dependent _ _ hv).elim
    | _ => simp [hv, View.shape] at hinner

theorem eliminateAll_run (hrel : e.rel.PlainGround)
    (h : Eliminates σ i e.rel pairs j reached [] owed) :
    (eliminateAll prove goal k pairs e).run s =
      (k ⟨reached, e.premises, e.subgoals ++ owed⟩).run s := by
  obtain ⟨rel, premises, subgoals⟩ := e
  dsimp only at hrel h ⊢
  generalize hedges : ([] : List Premise) = edges at h
  induction h generalizing subgoals with
  | nil => simp [eliminateAll]
  | @cons n m m' l rel rel' rel'' a b rest edges edges' owed owed' h hm hrest ih =>
    obtain ⟨rfl, rfl⟩ := List.append_eq_nil_iff.1 hedges.symm
    rw [eliminateAll, eliminate_run (e := ⟨rel, premises, subgoals⟩) hrel h,
      ih _ (h.clears hrel).reached rfl, List.append_assoc]

/-! ## Bridging -/

/-- Whether a bridge was crossed is written down, and nothing else changes. -/
theorem bridging_prevails {search : (Proof → Search ρ) → Search ρ} {k : Proof → Search ρ}
    {onFailure : Bool → Failure → Search ρ}
    (hsearch : ∀ cross : Proof → Search ρ, (∀ p t, s.Grown t → Sure T (cross p) t) →
      ∀ t, s.Kept t → Prevails T (search cross) t)
    (hk : ∀ p t, s.Grown t → Sure T (k p) t)
    (hstop : ∀ crossed why t, T.Stopped why t → Prevails T (onFailure crossed why) t) :
    Prevails T (bridging search k onFailure) s := by
  have hcross (number : Nat) (p : Proof) (t : State) (ht : s.Grown t) : Sure T (do
      enterLedger fun l => { l with crossed := l.crossed.insert number }
      k p) t := by
    have hgets : (enterLedger fun l => { l with crossed := l.crossed.insert number }).Gets t
        fun _ u => t.Kept u :=
      (enterLedger_gets (.cross t.ledger number)).mono fun _ _ _ hu => hu.1
    refine ⟨.after .enterLedger fun _ => (hk p t ht).mild, ?_, ?_⟩
    · exact hgets.yields fun _ u hu _ => (hk p u (ht.trans hu)).yields
    · exact .after .enterLedger fun _ u hrun =>
        (hk p u (ht.trans (hgets.of_success hrun).1)).prevails
  refine .after .beginBridge fun number t hrun => ?_
  have ht : s.Kept t := (beginBridge_gets.of_success hrun).2.1
  intro why u h
  rw [run_recover] at h
  split at h
  · next why' v hsearch' =>
    have hstopped := hsearch _ (hcross number) t ht why' v hsearch'
    exact hstop (v.ledger.crossed.contains number) why'
      { v with ledger := { v.ledger with crossed := v.ledger.crossed.erase number } }
      hstopped why u h
  · cases h
  · cases h

/-- The relation wanted is reached if the inclusion is sure to be proved. -/
theorem bridge_prevails (hcross : Assured T ρ prove s (.subrel e.rel wanted))
    (hk : ∀ e' t, s.Grown t → e'.subgoals = e.subgoals → Sure T (k e') t) :
    Prevails T (bridge prove goal wanted e k) s := by
  intro why t h
  change (if s.subst.view e.rel = s.subst.view wanted then _ else _ : Search ρ).run s = _ at h
  split at h
  · exact (hk e s (.refl s) rfl).prevails why t h
  · refine bridging_prevails (fun cross hs t ht => ?_)
      (fun p t ht => hk (e.via wanted p) t ht rfl) ?_ why t h
    · exact (hcross cross t ht.grown fun p u hu => hs p u (ht.grown.trans hu)).prevails
    · rintro crossed why t (hwhy | hspent)
      · rw [if_pos (by simp [hwhy])]
        exact .fail (.inl hwhy)
      · intro why' u hrun
        split at hrun <;> cases hrun <;> exact .inr hspent

/-! ## Candidates -/

variable {emit : Reduction → Search ρ} {crel : Term} {ys : List Term} {n room : Nat}

/-- A candidate that covers the first arguments of both sides. -/
theorem useCandidate_prevails {source : Source} {witness : Term} (hcrel : crel.PlainGround)
    (hleft : (Term.app f (as ++ xs)).ground = true) (hright : (Term.app g (bs ++ ys)).ground = true)
    (hlen : xs.length = ys.length) (helim : Eliminates σ i crel (xs.zip ys) j reached [] owed)
    (hcross : Assured T ρ prove s (.subrel reached rel))
    (hemit : ∀ r t, s.Grown t → r.subgoals = owed → Sure T (emit r) t) :
    Prevails T (useCandidate prove (.related rel (.app f (as ++ xs)) (.app g (bs ++ ys)))
      (as ++ xs).length emit ⟨source, crel, .app f as, .app g bs, witness, as.length⟩) s := by
  have hextra : (as ++ xs).length - as.length = xs.length := by simp
  simp only [useCandidate, hextra]
  refine (splitSide_gives hleft).prevails fun t ht => ?_
  rw [hlen]
  refine (splitSide_gives hright).prevails fun u hu => ?_
  have hsu : s.Grown u := (ht.trans hu).grown
  intro why v h
  rw [eliminateAll_run (e := ⟨crel, _, []⟩) hcrel helim] at h
  refine bridge_prevails (hcross.later hsu) (fun e' t ht howed => ?_) why v h
  exact hemit _ t (hsu.trans ht) (by simpa using howed)

end Search

variable {T : Theory} {ρ : Type} {s t : State} {room n m : Nat} {goal : Goal}
  {k : Proof → Search ρ}

/-- The look-up that finds a candidate that leads to a proof is reached. -/
theorem tryBatches_prevails_of_mem (hT : T.Library) (found : Candidate → Prop)
    {emit : Reduction → Search ρ} {rel right : Term} {head : String} {args : List Term}
    (hmild : ∀ r, (emit r).Mild)
    (hyields : ∀ r t, s.Grown t → (emit r).Yields t fun _ _ => True) {batch : Batch}
    (hfinds : ∀ t, s.Kept t → (probe T .left head batch).Gets t fun cs _ => ∃ c ∈ cs, found c)
    (huse : ∀ c t, found c → s.Kept t → Prevails T (useCandidate (solve T room)
      (.related rel (.app head args) right) args.length emit c) t)
    {batches : List Batch} {best : Option Failure} (hbatch : batch ∈ batches)
    (hplan : ∀ b ∈ batches, b ∈ Batch.plan (T.registry.parameters.get? head) args.length)
    (hbest : ∀ b ∈ best, b.Mild) :
    Prevails T (tryBatches T (solve T room) (.related rel (.app head args) right) .left head
      args.length emit batches best) s := by
  have hmild' : ∀ c, (useCandidate (solve T room) (.related rel (.app head args) right)
      args.length emit c).Mild := fun c =>
    (useCandidate_upheld (solve_upheld hT.candid (fun _ _ _ => exhausted) room) fun r =>
      .refl (hmild r)).mild
  induction batches generalizing s best with
  | nil => cases hbatch
  | cons b rest ih =>
    refine .after probe_total fun cs t hrun => ?_
    obtain ⟨-, ht, hcs⟩ := probe_gets.of_success hrun
    have hyields' : ∀ c ∈ cs, ∀ u, t.Kept u → (useCandidate (solve T room)
        (.related rel (.app head args) right) args.length emit c).Yields u fun _ _ => True := by
      intro c hc u hu
      refine useCandidate_yields (hT.met_replay room) (fun _ h => by cases h) (fun _ => rfl)
        (hplan b List.mem_cons_self) (hcs c hc) (ht.trans hu).grown fun r v hv => ?_
      exact hyields r v hv.grown
    by_cases hb : b = batch
    · subst hb
      obtain ⟨-, c, hc, hfound⟩ := (hfinds s (.refl s)).of_success hrun
      refine tryEach_prevails_of_mem hmild' (fun best u hbest => ?_) hyields' hc
        (fun u hu => huse c u hfound (ht.trans hu)) hbest
      exact tryBatches_prevails hmild' hbest
    · refine tryEach_prevails_of_rest hmild' hyields' (fun best u hu hbest => ?_) hbest
      have hsu : s.Kept u := ht.trans hu
      refine ih (fun r v hv => hyields r v (hsu.grown.trans hv)) (fun v hv => ?_) ?_ ?_ ?_ hbest
      · exact hfinds v (hsu.trans hv)
      · exact fun c v hc hv => huse c v hc (hsu.trans hv)
      · exact (List.mem_cons.1 hbatch).resolve_left (Ne.symm hb)
      · exact fun b' hb' => hplan b' (List.mem_cons_of_mem _ hb')

/-! ## The rules for related terms -/

/-- Hypotheses put into scope since so many symbols were minted: their left sides are new. -/
def NewSince (n m : Nat) (further : List Hypothesis) : Prop :=
  ∀ h ∈ further, h.Settled m ∧ ∃ hint i, n ≤ i ∧ h.left = .minting hint i

/-- What has a derivation of smaller height is sure to be proved from here on, also under new
hypotheses. -/
def Theory.ProvesBelow (T : Theory) (ρ : Type) (room n : Nat) (s : State) : Prop :=
  ∀ j < n, ∀ (further : List Hypothesis) (goal : Goal) (k : Proof → Search ρ) (u : State),
    (s.assume further).Grown u → NewSince s.minted u.minted further → goal.Settled u.minted →
    Provable T.registry j (s.hyps ++ further) goal → (∀ p v, u.Grown v → Sure T (k p) v) →
    Sure T (solve T room ρ goal k) u

theorem Theory.ProvesBelow.assured {j : Nat} (h : T.ProvesBelow ρ room n s) (hj : j < n)
    (hgoal : goal.Settled s.minted) (hprovable : Provable T.registry j s.hyps goal) :
    Assured T ρ (solve T room) s goal := by
  intro k t ht hk
  refine h j hj [] goal k t ?_ (by simp [NewSince]) (hgoal.of_le ht.minted) (by simpa) hk
  simpa [State.assume] using ht

section Rules

variable {rel left right : Term} {rule : Rule} {hyps : List Hypothesis}

theorem eqRefl_gives {term : Term} : (eqRefl (.related rel term term)).Gives s {} := by
  refine ⟨s, ?_, .refl s⟩
  change (if s.subst.resolve term = s.subst.resolve term then _ else _ : Search Reduction).run s = _
  rw [if_pos rfl]
  rfl

theorem flipIntro_gives {inner : Term} (h : s.subst.view rel = .flip inner) :
    (flipIntro (.related rel left right)).Gives s { subgoals := [.related inner right left] } := by
  refine ⟨s, ?_, .refl s⟩
  simp only [flipIntro, run_bind, Search.subst, h]
  rfl

theorem eqCongruence_gives {f : String} {xs ys : List Term}
    (hleft : (Term.app f xs).ground = true) (hright : (Term.app f ys).ground = true)
    (hlen : xs.length = ys.length) (hne : xs ≠ []) :
    (eqCongruence (.related rel (.app f xs) (.app f ys))).Gives s
      { subgoals := (xs.zip ys).map fun (x, y) => .related rel x y } := by
  refine ⟨s, ?_, .refl s⟩
  simp only [eqCongruence, run_bind, Search.subst, (Term.leaves_of_ground hleft s.subst).walk_eq,
    (Term.leaves_of_ground hright s.subst).walk_eq]
  rw [if_pos ⟨trivial, hlen, hne⟩]
  rfl

theorem applied_gives {f g : String} {xs ys : List Term} {x y : Term}
    (hleft : (Term.app f xs).ground = true) (hright : (Term.app g ys).ground = true) :
    (applied goal (.app f xs) (.app g ys) x y).Gives s
      (.app f (xs ++ [x]), .app g (ys ++ [y])) := by
  refine ⟨s, ?_, .refl s⟩
  simp only [applied, run_bind, Search.subst, (Term.leaves_of_ground hleft s.subst).walk_eq,
    (Term.leaves_of_ground hright s.subst).walk_eq]
  rfl

/-- Functions are related by an arrow if they are, applied to two new constants, by the codomain. -/
theorem arrowIntro_prevails {f g : String} {xs ys : List Term} {dom cod : Term} {j : Nat}
    (hmethod : rule.method = .arrowIntro) (hrel : rel.PlainGround)
    (hleft : (Term.app f xs).Settled s.minted) (hright : (Term.app g ys).Settled s.minted)
    (hview : rel.view = .arrow dom cod) (hj : j < n) (hbelow : T.ProvesBelow ρ room n s)
    (h : ∀ x y name, Symbols.isMarked x = true → Symbols.isMarked y = true →
      Provable T.registry j (s.hyps ++ [⟨dom, .const x, .const y, name⟩])
        (.related cod (.app f (xs ++ [.const x])) (.app g (ys ++ [.const y]))))
    (hk : ∀ p t, s.Grown t → Sure T (k p) t) :
    Prevails T (applyRule T (solve T room) (.related rel (.app f xs) (.app g ys)) k rule) s := by
  have hparts : ∀ u ∈ [dom, cod], u.PlainGround := fun u hu =>
    hrel.of_mem_parts (by simpa [hview, View.parts] using hu)
  rw [List.forall_mem_cons, List.forall_mem_singleton] at hparts
  have hseen : s.subst.view rel = .arrow dom cod :=
    (Term.leaves_of_ground hrel.ground _).view_eq.trans hview
  rw [applyRule, hmethod]
  simp only [Method.run, arrowIntro]
  intro why final
  rw [run_bind]
  simp only [Search.subst, hseen]
  revert why final
  refine Prevails.after .freshConst fun x t₁ h₁ => Prevails.after .freshConst fun y t₂ h₂ => ?_
  refine (applied_gives hleft.ground hright.ground).prevails fun t₃ h₃ => ?_
  refine Prevails.after .freshConst fun name t₄ h₄ => ?_
  obtain ⟨-, hk₁, hm₁, rfl⟩ := freshConst_gets.of_success h₁
  obtain ⟨-, hk₂, hm₂, rfl⟩ := freshConst_gets.of_success h₂
  obtain ⟨-, hk₄, hm₄, rfl⟩ := freshConst_gets.of_success h₄
  have hs : s.Kept t₄ := ((hk₁.trans hk₂).trans h₃).trans hk₄
  refine proveAssuming_prevails (fun p t ht => hk _ t (hs.grown.trans ht)) fun k' hk' => ?_
  have hm : s.minted + 3 ≤ t₄.minted := by
    have := h₃.grown.minted
    omega
  have hx : (Term.minting "x" s.minted).Settled t₄.minted := Term.settled_minting _ (by omega)
  have hy : (Term.minting "y" t₁.minted).Settled t₄.minted := Term.settled_minting _ (by omega)
  refine hbelow j hj _ _ k' _ (hs.grown.assume _) ?_ ?_ ?_ hk'
  · exact List.forall_mem_singleton.2 ⟨⟨hparts.1, hx, hy⟩, "x", s.minted, le_rfl, rfl⟩
  · exact .related hparts.2 (hleft.applied hs.grown.minted hx) (hright.applied hs.grown.minted hy)
  · exact h _ _ _ (Symbols.isMarked_minting ..) (Symbols.isMarked_minting ..)

/-- A fact or hypothesis that leads to the goal is found and used. -/
theorem monotone_prevails (hT : T.Library) (hreg : T.registry.Simple) (hacyclic : s.subst.Acyclic)
    {f g : String} {as bs xs ys : List Term} {batch : Batch} {crel reached : Term} {σ : Subst}
    {i j l : Nat} {owed : List Goal} (hmethod : rule.method = .monotone .left)
    (hrel : rel.PlainGround) (hleft : (Term.app f (as ++ xs)).Settled s.minted)
    (hright : (Term.app g (bs ++ ys)).Settled s.minted)
    (hhyps : ∀ h ∈ s.hyps, h.Settled s.minted)
    (hbatch : batch ∈ Batch.plan (T.registry.parameters.get? f) (as ++ xs).length)
    (hc : T.registry.Offers s.hyps batch crel (.app f as) (.app g bs))
    (hlen : xs.length = ys.length) (helim : Eliminates σ i crel (xs.zip ys) j reached [] owed)
    (hbridge : Included T.registry l reached rel)
    (howed : ∀ goal ∈ owed, Provable T.registry l s.hyps goal) (hl : l < n)
    (hbelow : T.ProvesBelow ρ room n s) (hk : ∀ p t, s.Grown t → Sure T (k p) t) :
    Prevails T (applyRule T (solve T room) (.related rel (.app f (as ++ xs)) (.app g (bs ++ ys))) k
      rule) s := by
  have hcrel := (hc.settled hreg hhyps).1
  have hclears := helim.clears hcrel
  have hsettled : ∀ goal ∈ owed, goal.Settled s.minted := by
    refine hclears.settled fun a b hab => ⟨?_, ?_⟩
    · exact (Term.settled_app.1 hleft).2 a (List.mem_append_right _ (List.of_mem_zip hab).1)
    · exact (Term.settled_app.1 hright).2 b (List.mem_append_right _ (List.of_mem_zip hab).2)
  have hcross : Assured T ρ (solve T room) s (.subrel reached rel) :=
    hbelow.assured hl (.subrel hclears.reached hrel) (.subrel hbridge)
  have hassured : ∀ goal ∈ owed, Assured T ρ (solve T room) s goal :=
    fun goal hgoal => hbelow.assured hl (hsettled goal hgoal) (howed goal hgoal)
  have hwalk := (Term.leaves_of_ground hleft.ground s.subst).walk_eq
  rw [applyRule, hmethod]
  intro why final
  simp only [Method.run, monotone, run_bind, Search.subst, Side.pick, hwalk, reduceCtorEq,
    false_and, if_false]
  revert why final
  let found (c : Candidate) : Prop :=
    ∃ source witness, c = ⟨source, crel, .app f as, .app g bs, witness, as.length⟩
  refine tryBatches_prevails_of_mem hT found ?_ ?_ (fun t ht => ?_) (fun c t hfound ht => ?_) hbatch
    (fun _ => id) (by simp)
  · exact fun r => hT.proveAll_mild fun ps => (hk _ s (.refl s)).mild
  · exact fun r t ht => hT.proveAll_yields (ht.acyclic hacyclic) fun ps u hu =>
      (hk _ u (ht.trans hu)).yields
  · rw [← ht.hyps] at hc hhyps
    refine (probe_finds hreg (fun h hh => (hhyps h hh).of_le ht.grown.minted) hc).mono ?_
    rintro cs u - ⟨source, witness, hmem⟩
    exact ⟨_, hmem, source, witness, rfl⟩
  · obtain ⟨source, witness, rfl⟩ := hfound
    refine useCandidate_prevails hcrel hleft.ground hright.ground hlen helim (hcross.later ht.grown)
      fun r u hu hgoals => ?_
    have hsu : s.Grown u := ht.grown.trans hu
    refine proveAll_sure (fun goal hgoal => ?_) fun ps v hv => hk _ v (hsu.trans hv)
    exact (hassured goal (hgoals ▸ hgoal)).later hsu

/-- The last step of a derivation is made by a standard rule, which leaves goals that have smaller
derivations. -/
theorem Provable.exists_rule (hT : T.Library) (hreg : T.registry.Tidy)
    (h : Provable T.registry n hyps (.related rel left right)) :
    ∃ rule ∈ Rule.standard, ∀ (ρ : Type) (room : Nat) (k : Proof → Search ρ) (s : State),
      s.subst.Acyclic → (Goal.related rel left right).Settled s.minted → s.hyps = hyps →
      (∀ h ∈ hyps, h.Settled s.minted) →
      rule.pattern.fits s.subst (.related rel left right) = true ∧
        (T.ProvesBelow ρ room n s → (∀ p t, s.Grown t → Sure T (k p) t) →
          Prevails T (applyRule T (solve T room) (.related rel left right) k rule) s) := by
  have hseen : ∀ {t : Term} (_ : t.PlainGround) {σ : Subst}, σ.view t = t.view :=
    fun ht _ => (Term.leaves_of_ground ht.ground _).view_eq
  have hfits {t : Term} (ht : t.PlainGround) {v : View} (hv : t.view = v) {σ : Subst} :
      (Pattern.related v.shape).fits σ (.related t left right) = true := by
    simp [Pattern.fits, hseen ht, hv]
  cases h with
  | top hview =>
    refine ⟨⟨"top", Rule.intro, .related .top, .top⟩, by simp [Rule.standard],
      fun ρ room k s _ hgoal _ _ => ?_⟩
    cases hgoal with
    | related hrel hl hr =>
      refine ⟨hfits hrel hview, fun hbelow hk => ?_⟩
      exact applyRule_prevails (fun _ => rfl) (.pure (a := {})) (by simp) hk
  | equal hview =>
    refine ⟨⟨"eq_refl", Rule.intro, .related .equality, .eqRefl⟩, by simp [Rule.standard],
      fun ρ room k s _ hgoal _ _ => ?_⟩
    cases hgoal with
    | related hrel hl hr =>
      refine ⟨hfits hrel hview, fun hbelow hk => ?_⟩
      exact applyRule_prevails (fun _ => rfl) eqRefl_gives (by simp) hk
  | @flip n _ _ inner _ _ hview h =>
    refine ⟨⟨"flip_intro", Rule.intro, .related .flip, .flipIntro⟩, by simp [Rule.standard],
      fun ρ room k s _ hgoal hhyps _ => ?_⟩
    cases hgoal with
    | related hrel hl hr =>
      subst hhyps
      have hinner : inner.PlainGround := hrel.of_mem_parts (by simp [hview, View.parts])
      refine ⟨hfits hrel hview, fun hbelow hk => ?_⟩
      refine applyRule_prevails (fun _ => rfl) (flipIntro_gives ((hseen hrel).trans hview)) ?_ hk
      exact List.forall_mem_singleton.2
        (hbelow.assured (Nat.lt_succ_self n) (.related hinner hr hl) h)
  | @arrow n _ _ dom cod f g xs ys hview h =>
    refine ⟨⟨"arrow_intro", Rule.intro + 1, .related .arrow, .arrowIntro⟩, by simp [Rule.standard],
      fun ρ room k s _ hgoal hhyps _ => ?_⟩
    cases hgoal with
    | related hrel hl hr =>
      subst hhyps
      refine ⟨hfits hrel hview, fun hbelow hk => ?_⟩
      exact arrowIntro_prevails rfl hrel hl hr hview (Nat.lt_succ_self n) hbelow h hk
  | @monotone n _ _ f g as bs xs ys batch crel σ i j reached owed hbatch hc hlen helim hbridge howed
    =>
    refine ⟨⟨"mono_left", Rule.monotonicity, .anyRelated, .monotone .left⟩, by simp [Rule.standard],
      fun ρ room k s hacyclic hgoal hhyps hsettled => ⟨rfl, fun hbelow hk => ?_⟩⟩
    cases hgoal with
    | related hrel hl hr =>
      subst hhyps
      exact monotone_prevails hT hreg.toSimple hacyclic rfl hrel hl hr hsettled hbatch hc hlen helim
        hbridge howed (Nat.lt_succ_self n) hbelow hk
  | @congruence n _ _ f xs ys hview hlen hne h =>
    refine ⟨⟨"eq_congruence", Rule.monotonicity + 5, .related .equality, .eqCongruence⟩,
      by simp [Rule.standard], fun ρ room k s _ hgoal hhyps _ => ?_⟩
    cases hgoal with
    | related hrel hl hr =>
      subst hhyps
      refine ⟨hfits hrel hview, fun hbelow hk => ?_⟩
      refine applyRule_prevails (fun _ => rfl)
        (eqCongruence_gives hl.ground hr.ground hlen hne) ?_ hk
      rw [List.forall_mem_map]
      rintro ⟨x, y⟩ hxy
      refine hbelow.assured (Nat.lt_succ_self n) (.related hrel ?_ ?_) (h x y hxy)
      · exact (Term.settled_app.1 hl).2 x (List.of_mem_zip hxy).1
      · exact (Term.settled_app.1 hr).2 y (List.of_mem_zip hxy).2

end Rules

/-! ## Derivations are found -/

theorem Goal.Settled.resolve_eq (h : goal.Settled n) (σ : Subst) : goal.resolve σ = goal := by
  have hleaves {t : Term} (ht : t.ground = true) : σ.resolve t = t :=
    (Term.leaves_of_ground ht σ).resolve_eq
  cases h with
  | related hrel hleft hright =>
    simp only [resolve, map, hleaves hrel.ground, hleaves hleft.ground, hleaves hright.ground]
  | subrel hlesser hgreater =>
    simp only [resolve, map, hleaves hlesser.ground, hleaves hgreater.ground]

/-- A goal that knows nothing of the new constants needs no hypotheses about them. -/
theorem Provable.of_new {r : Registry} {hyps further : List Hypothesis} (hreg : r.Tidy)
    (h : Provable r n (hyps ++ further) goal) (hgoal : goal.Settled m)
    (hhyps : ∀ h ∈ hyps, h.Settled m) {l : Nat} (hl : m ≤ l) (hfurther : NewSince m l further) :
    Provable r n hyps goal := by
  rw [← hgoal.relabel_id]
  refine h.transfer hreg Symbols.renaming_id (hgoal.of_le hl) ?_ ?_
  · refine List.forall_mem_append.2 ⟨fun h hh => (hhyps h hh).of_le hl, fun h hh => ?_⟩
    exact (hfurther h hh).1
  · refine List.forall_mem_append.2 ⟨fun h hh => .inl ⟨h, hh, rfl, ?_, ?_⟩, fun h hh => .inr ?_⟩
    · rw [(hhyps h hh).left.relabel_id]
    · rw [(hhyps h hh).right.relabel_id]
    · obtain ⟨-, hint, i, hi, hleft⟩ := hfurther h hh
      exact ⟨Symbols.minting hint i, [], hleft, hgoal.avoids hi⟩

/-- A goal that has a derivation is proved, unless a limit stops the search, if no goal in progress
has a derivation of that height. -/
theorem Provable.sure (hT : T.Library) (hrules : T.Stocked) (hreg : T.registry.Tidy)
    (h : Provable T.registry n s.hyps goal) (hgoal : goal.Settled s.minted)
    (hhyps : ∀ h ∈ s.hyps, h.Settled s.minted) (hacyclic : s.subst.Acyclic)
    (hfree : ∀ g ∈ s.active, g.Settled s.minted ∧ ¬ Provable T.registry n s.hyps g)
    (hk : ∀ p t, s.Grown t → Sure T (k p) t) : Sure T (solve T room ρ goal k) s := by
  induction n using Nat.strong_induction_on generalizing goal s k room with
  | _ n ih =>
  cases hgoal with
  | subrel hlesser hgreater =>
    cases h with
    | subrel h =>
      refine h.sure hT hrules ?_ hlesser.ground hgreater.ground hacyclic ?_ hk
      · exact fun f hf => ⟨(hreg.inclusions f hf).1.ground, (hreg.inclusions f hf).2.ground⟩
      · exact fun l g hlg hincluded => (hfree _ hlg).2 (.subrel hincluded)
  | @related rel left right hrel hl hr =>
  have hsettled : (Goal.related rel left right).Settled s.minted := .related hrel hl hr
  by_cases hless : ∃ j < n, Provable T.registry j s.hyps (.related rel left right)
  · obtain ⟨j, hj, hless⟩ := hless
    refine ih j hj hless hsettled hhyps hacyclic (fun g hg => ?_) hk
    exact ⟨(hfree g hg).1, fun hg' => (hfree g hg).2 (hg'.mono hj.le)⟩
  · -- the derivation is of least height, so the goals that it leaves do not come back to it
    obtain ⟨rule, hrule, happly⟩ := h.exists_rule hT hreg
    have hfits := (happly ρ room k s hacyclic hsettled rfl hhyps).1
    refine solve_sure hT hacyclic (hrules rule hrule) (hsettled.resolve_eq s.subst)
      (fun hmem => (hfree _ hmem).2 h) hfits hk fun room k' t ht hk' => ?_
    have hm : s.minted ≤ t.minted := ht.grown.minted
    have hacyclic' := ht.grown.acyclic hacyclic
    have hhyps' : ∀ h ∈ s.hyps, h.Settled t.minted := fun h hh => (hhyps h hh).of_le hm
    refine (happly ρ room k' t hacyclic' (hsettled.of_le hm) ht.hyps hhyps').2 ?_ hk'
    intro j hj further goal k'' u hu hfurther hgoal hprovable hk''
    have hmu : t.minted ≤ u.minted := hu.minted
    have hkept : t.hyps = s.hyps := ht.hyps
    have hscope : u.hyps = s.hyps ++ further := by rw [hu.hyps, ← hkept]; rfl
    have hback {g : Goal} (hg : g.Settled s.minted) (hg' : Provable T.registry j u.hyps g) :
        Provable T.registry j s.hyps g :=
      Provable.of_new hreg (hscope ▸ hg') (hg.of_le hm) hhyps' hmu hfurther
    refine ih j hj ?_ hgoal ?_ (hu.acyclic hacyclic') (fun g hg => ?_) hk''
    · rwa [hscope, ← hkept]
    · rw [hscope]
      refine List.forall_mem_append.2 ⟨fun h hh => (hhyps' h hh).of_le hmu, fun h hh => ?_⟩
      exact (hfurther h hh).1
    · have hactive : u.active = .related rel left right :: s.active := hu.active.trans ht.active
      rcases List.mem_cons.1 (hactive ▸ hg) with rfl | hg
      · exact ⟨hsettled.of_le (hm.trans hmu), fun hj' => hless ⟨j, hj, hback hsettled hj'⟩⟩
      · refine ⟨(hfree g hg).1.of_le (hm.trans hmu), fun hj' => (hfree g hg).2 ?_⟩
        exact (hback (hfree g hg).1 hj').mono hj.le

end Monotonicity
