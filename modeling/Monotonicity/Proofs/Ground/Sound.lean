import Monotonicity.Proofs.Ground.Complete
import Monotonicity.Proofs.Order.Sound

/-!
# What is found is provable

What a solver that puts nothing off finds for a goal in simple terms has a derivation. Every rule
reduces such a goal to others, from derivations of which one of the goal is made
(`related_reaches`); in a ground goal there is nothing to be filled in. So with `Provable.sure` it
is known what an engine answers, up to limits: `holds_iff_provable`.
-/

namespace Monotonicity

open Search

/-- The view of a ground relation is no placeholder. -/
theorem Term.view_ne_placeholder {t : Term} (h : t.ground = true) (i : Nat) :
    t.view ≠ .placeholder i := by
  intro hview
  have hcore : t.unflip false = (false, .var i) :=
    Subst.acyclic_empty.unflipFor_of_view (by rw [← Term.view, hview]; rfl)
  have hi : i ∈ t.vars := (mem_vars_unflip hcore).1 (by simp)
  simp [ground_iff.1 h] at hi

/-- A settled term is an application. -/
theorem Term.Settled.exists_app {t : Term} {n : Nat} (h : t.Settled n) :
    ∃ head args, t = .app head args := by
  cases t with
  | var i => exact absurd h.ground (by simp [Term.ground])
  | app head args => exact ⟨head, args, rfl⟩
  | cases s arms => exact (Term.Settled.not_cases h).elim

variable {T : Theory} {ρ : Type} {s t : State} {S : ρ → State → Prop} {goal : Goal} {n : Nat}
  {hyps : List Hypothesis} {prove : Prover} {k : Proof → Search ρ} {rel left right : Term}

/-- The goal has a derivation from the hypotheses. -/
def Goal.ProvableFrom (r : Registry) (hyps : List Hypothesis) (goal : Goal) : Prop :=
  ∃ n, Provable r n hyps goal

/-- The prover hands on proofs of what is provable only, if it is asked for settled goals under
settled hypotheses. -/
def Theory.Certifies (T : Theory) (prove : Prover) : Prop :=
  ∀ {ρ : Type} {goal : Goal} {k : Proof → Search ρ} {s : State} {S : ρ → State → Prop},
    s.subst.Acyclic → goal.Settled s.minted → (∀ h ∈ s.hyps, h.Settled s.minted) →
    (∀ p t, s.Grown t → goal.ProvableFrom T.registry s.hyps → (k p).Yields t S) →
    (prove ρ goal k).Yields s S

/-- What a rule makes of a goal: from derivations of the goals that are left there is one of the
goal. -/
structure Reduction.Reaches (r : Registry) (n : Nat) (hyps : List Hypothesis) (goal : Goal)
    (reduction : Reduction) : Prop where
  settled : ∀ g ∈ reduction.subgoals, g.Settled n
  provable : (∀ g ∈ reduction.subgoals, g.ProvableFrom r hyps) → goal.ProvableFrom r hyps

theorem Reduction.reaches_of_provable {premises : List Proof} {r : Registry}
    (h : goal.ProvableFrom r hyps) : Reduction.Reaches r n hyps goal { premises := premises } :=
  ⟨by simp, fun _ => h⟩

theorem Reduction.Reaches.of_le {r : Registry} {m : Nat} {reduction : Reduction}
    (h : reduction.Reaches r n hyps goal) (hm : n ≤ m) : reduction.Reaches r m hyps goal :=
  ⟨fun g hg => (h.settled g hg).of_le hm, h.provable⟩

theorem Theory.Certifies.proveAll (hprove : T.Certifies prove) {k : List Proof → Search ρ}
    {goals : List Goal} {done : List Proof} (hacyclic : s.subst.Acyclic)
    (hgoals : ∀ g ∈ goals, g.Settled s.minted) (hhyps : ∀ h ∈ s.hyps, h.Settled s.minted)
    (hk : ∀ ps t, s.Grown t → (∀ g ∈ goals, g.ProvableFrom T.registry s.hyps) →
      (k ps).Yields t S) : (proveAll prove k goals done).Yields s S := by
  induction goals generalizing s done with
  | nil => exact hk done s (.refl s) (by simp)
  | cons g goals ih =>
    rw [List.forall_mem_cons] at hgoals
    refine hprove hacyclic hgoals.1 hhyps fun p t ht hg => ?_
    refine ih (ht.acyclic hacyclic) ?_ ?_ fun ps u hu hrest => ?_
    · exact fun g hg => (hgoals.2 g hg).of_le ht.minted
    · rw [ht.hyps]
      exact fun h hh => (hhyps h hh).of_le ht.minted
    · rw [ht.hyps] at hrest
      exact hk ps u (ht.trans hu) (List.forall_mem_cons.2 ⟨hg, hrest⟩)

/-- A goal under further hypotheses, which are withdrawn for the continuation. -/
theorem Theory.Certifies.proveAssuming (hprove : T.Certifies prove) {further : List Hypothesis}
    (hacyclic : s.subst.Acyclic) (hgoal : goal.Settled s.minted)
    (hhyps : ∀ h ∈ s.hyps ++ further, h.Settled s.minted)
    (hk : ∀ p t, s.Grown t → goal.ProvableFrom T.registry (s.hyps ++ further) →
      (k p).Yields t S) : (proveAssuming prove further goal k).Yields s S := by
  refine Yields.hyps (Ends.within _ _ ?_)
  refine Ends.mono (hprove (s := s.assume further) (S := S) hacyclic hgoal hhyps ?_)
    (fun t ht => ht.of_assume) fun _ _ => id
  intro p t ht hp
  have hafter := hk p (t.withdraw s.hyps.length) ht.of_assume hp
  have hback := Ends.mono hafter (fun u hu => ht.assume_drop hu) fun _ _ => id
  exact Ends.within (·.withdraw s.hyps.length) _ hback

/-! ## Candidates -/

section Candidates

variable {batch : Batch} {head : String} {e : Elimination} {a b wanted : Term}
  {pairs : List (Term × Term)} {k : Elimination → Search ρ}

/-- A candidate for a left side with this head: its parts are settled, and if its left side has the
head as well, then it is offered. -/
structure Candidate.Fit (r : Registry) (hyps : List Hypothesis) (batch : Batch) (head : String)
    (n : Nat) (c : Candidate) : Prop where
  rel : c.rel.PlainGround
  left : c.left.Settled n
  right : c.right.Settled n
  offered : ∀ args, c.left = .app head args →
    c.consumed = args.length ∧ r.Offers hyps batch c.rel (.app head args) c.right

theorem Candidate.Fit.of_le {r : Registry} {m : Nat} {c : Candidate}
    (h : c.Fit r hyps batch head n) (hm : n ≤ m) : c.Fit r hyps batch head m :=
  ⟨h.rel, h.left.of_le hm, h.right.of_le hm, h.offered⟩

theorem factCandidates_fit (hyps : List Hypothesis) (n : Nat) (hreg : T.registry.Simple)
    {ids : List Nat}
    (hids : ∀ id ∈ ids, id ∈ T.registry.lookup .left head batch) :
    (factCandidates T .left batch ids).Gets s fun cs _ =>
      ∀ c ∈ cs, c.Fit T.registry hyps batch head n := by
  induction ids generalizing s with
  | nil => exact .pure (by simp)
  | cons id rest ih =>
    rw [List.forall_mem_cons] at hids
    have hrest := fun t => ih (s := t) hids.2
    unfold factCandidates
    split
    · next fact hfact =>
      obtain ⟨hrel, hl, hr⟩ := hreg.facts _ (Array.mem_of_getElem? hfact)
      split
      · next f args hside =>
        split
        · next hcovers =>
          refine reserve_gets.bind fun offset t _ _ => (hrest t).bind fun cs u _ hcs => .pure ?_
          refine List.forall_mem_cons.2 ⟨?_, hcs⟩
          simp only [Fact.rename, Term.rename_of_ground hrel.ground,
            Term.rename_of_ground hl.ground, Term.rename_of_ground hr.ground]
          refine ⟨hrel.plainGround, hl.settled n, hr.settled n, fun args' hargs => ?_⟩
          have hsame : Term.app f args = .app head args' := hside.symm.trans hargs
          cases hsame
          exact ⟨rfl, .fact hids.1 hfact hargs rfl hcovers⟩
        · exact hrest s
      · exact hrest s
    · exact hrest s

theorem fit_of_mem_hypothesisCandidates {σ : Subst} {c : Candidate} {r : Registry}
    (hhyps : ∀ h ∈ hyps, h.Settled n) (hc : c ∈ hypothesisCandidates σ .left head batch hyps) :
    c.Fit r hyps batch head n := by
  obtain ⟨⟨h, i⟩, hmem, hc⟩ := List.mem_filterMap.1 hc
  have hh : h ∈ hyps := List.mem_of_getElem? (List.mem_zipIdx_iff_getElem?.1 hmem)
  have hwalk := (Term.leaves_of_ground (hhyps h hh).left.ground σ).walk_eq
  simp only [Side.pick, hwalk] at hc
  split at hc
  · next f args hleft =>
    split at hc
    · next hf =>
      cases hc
      refine ⟨(hhyps h hh).rel, (hhyps h hh).left, (hhyps h hh).right, fun args' hargs => ?_⟩
      cases hleft.symm.trans hargs
      exact ⟨rfl, .hypothesis hh hargs rfl hf.2⟩
    · cases hc
  · cases hc

theorem probe_fit (hreg : T.registry.Simple) (hhyps : ∀ h ∈ s.hyps, h.Settled s.minted) :
    (probe T .left head batch).Gets s fun cs _ =>
      ∀ c ∈ cs, c.Fit T.registry s.hyps batch head s.minted := by
  refine (count_gets fun n => by simp [Stats.le_def]).bind fun _ t _ ht => ?_
  refine Gets.subst (Gets.hyps ?_)
  rw [ht.1.subst, ht.1.hyps]
  have hadd {ids : List Nat} (hids : ∀ id ∈ ids, id ∈ T.registry.lookup .left head batch) :
      (factCandidates T .left batch ids >>= fun facts => pure (batch.arrange
        (hypothesisCandidates s.subst .left head batch s.hyps) ++ batch.arrange facts)).Gets t
          fun cs _ => ∀ c ∈ cs, c.Fit T.registry s.hyps batch head s.minted := by
    refine (factCandidates_fit s.hyps s.minted hreg hids).bind fun facts u _ hfacts =>
      .pure fun c hc => ?_
    rcases List.mem_append.1 hc with hc | hc
    · exact fit_of_mem_hypothesisCandidates hhyps (mem_of_mem_arrange hc)
    · exact hfacts c (mem_of_mem_arrange hc)
  cases batch with
  | exact k => exact hadd fun _ => id
  | parameters p k => exact hadd fun _ => id

/-! ## Using a candidate -/

/-- A side that is split is the base applied to what is split off. -/
theorem splitSide_splits {term base : Term} {extra : Nat} (hacyclic : s.subst.Acyclic)
    (hterm : term.Settled n) (hbase : base.ground = true) :
    (splitSide goal term base extra).Gets s fun xs _ => xs.length = extra ∧
      ∃ f as, base = .app f as ∧ term = .app f (as ++ xs) := by
  obtain ⟨f, args, rfl⟩ := hterm.exists_app
  refine Gets.subst ?_
  rw [(Term.leaves_of_ground hterm.ground s.subst).walk_eq]
  dsimp only
  split
  · exact .noCandidate
  · next hlen =>
    refine Gets.unify (fun t ht hu => .pure ⟨by simp; omega, ?_⟩) fun _ _ => .noCandidate
    have htake : (Term.app f (args.take (args.length - extra))).ground = true := by
      have hground := hterm.ground
      rw [Term.ground_app] at hground ⊢
      exact fun t ht => hground t (List.mem_of_mem_take ht)
    have heq := eq_of_unified hacyclic (Subst.unified_one hu) List.mem_cons_self htake hbase
    exact ⟨f, _, heq.symm, by rw [List.take_append_drop]⟩

/-- A plain relation takes a pair in one way at most. -/
theorem eliminateStraight_passes (hrel : e.rel.PlainGround)
    (hk : ∀ reached owed, Straight .empty 0 e.rel a b 0 reached [] owed →
      (k ⟨reached, e.premises, e.subgoals ++ owed⟩).Yields s S) :
    (eliminateStraight prove goal e a b k).Yields s S := by
  refine Yields.subst ?_
  rw [(Term.leaves_of_ground hrel.ground s.subst).view_eq]
  cases hview : e.rel.view with
  | arrow dom cod => exact hk _ _ (.arrow hview)
  | dependent edge family => exact (hrel.plain.view_ne_dependent _ _ hview).elim
  | equality => exact hk _ _ (.equality hview)
  | top => simpa using hk _ _ (.top hview)
  | placeholder i => exact (Term.view_ne_placeholder hrel.ground i hview).elim
  | _ => exact .gap

theorem eliminate_passes (hrel : e.rel.PlainGround)
    (hk : ∀ reached owed, Passes .empty 0 e.rel a b 0 reached [] owed →
      (k ⟨reached, e.premises, e.subgoals ++ owed⟩).Yields s S) :
    (eliminate prove goal e a b k).Yields s S := by
  have hstraight : (eliminateStraight prove goal e a b k).Yields s S :=
    eliminateStraight_passes hrel fun reached owed h => hk _ _ (.straight h)
  refine Yields.subst ?_
  rw [(Term.leaves_of_ground hrel.ground s.subst).view_eq]
  cases hview : e.rel.view with
  | flip inner =>
    have hinner : inner.PlainGround := hrel.of_mem_parts (by simp [hview, View.parts])
    have hsame (h : inner.view = .equality ∨ inner.view = .top) :
        (eliminateStraight prove goal { e with rel := inner } a b k).Yields s S :=
      eliminateStraight_passes hinner fun reached owed hpass => hk _ _ (.symmetric hview h hpass)
    dsimp only
    rw [(Term.leaves_of_ground hinner.ground s.subst).view_eq]
    cases hview' : inner.view with
    | equality => exact hsame (.inl hview')
    | top => exact hsame (.inr hview')
    | arrow dom cod =>
      refine eliminateStraight_passes hinner fun reached owed hpass => hk _ _ ?_
      exact .converse hview (.inl (by rw [hview']; rfl)) hpass
    | dependent edge family => exact (hinner.plain.view_ne_dependent _ _ hview').elim
    | placeholder i => exact (Term.view_ne_placeholder hinner.ground i hview').elim
    | _ => exact .gap
  | _ => exact hstraight

theorem eliminateAll_passes (hrel : e.rel.PlainGround)
    (hk : ∀ reached owed, Eliminates .empty 0 e.rel pairs 0 reached [] owed →
      (k ⟨reached, e.premises, e.subgoals ++ owed⟩).Yields s S) :
    (eliminateAll prove goal k pairs e).Yields s S := by
  induction pairs generalizing e with
  | nil => simpa [eliminateAll] using hk _ _ .nil
  | cons pair rest ih =>
    obtain ⟨a, b⟩ := pair
    refine eliminate_passes hrel fun reached owed h => ih (h.clears hrel).reached ?_
    intro reached' owed' h'
    have hall := Eliminates.cons h le_rfl h'
    rw [List.append_assoc]
    exact hk _ _ hall

/-- The relation reached is included in the one wanted. -/
theorem bridge_crosses (hprove : T.Certifies prove) (hacyclic : s.subst.Acyclic)
    (hhyps : ∀ h ∈ s.hyps, h.Settled s.minted) (hrel : e.rel.PlainGround)
    (hwanted : wanted.PlainGround)
    (hk : ∀ e' t, s.Grown t → e'.subgoals = e.subgoals →
      (∃ n, Included T.registry n e.rel wanted) → (k e').Yields t S) :
    (bridge prove goal wanted e k).Yields s S := by
  refine Yields.subst ?_
  split
  · next hview =>
    rw [(Term.leaves_of_ground hrel.ground _).view_eq,
      (Term.leaves_of_ground hwanted.ground _).view_eq] at hview
    exact hk e s (.refl s) rfl ⟨0, .same hview⟩
  · refine bridging_yields (fun cross hcross t ht => ?_) fun crossed why t ht => ?_
    · refine hprove (ht.grown.acyclic hacyclic) (.subrel hrel hwanted) ?_ fun p u hu hp => ?_
      · rw [ht.hyps]
        exact fun h hh => (hhyps h hh).of_le ht.grown.minted
      · refine hcross p u fun v hv => hk _ v ((ht.grown.trans hu).trans hv.grown) rfl ?_
        obtain ⟨n, hn⟩ := hp
        cases hn with
        | subrel h => exact ⟨n, h⟩
    · split
      · exact .fail
      · exact .gap

variable {emit : Reduction → Search ρ} {args : List Term} {best : Option Failure}

theorem useCandidate_reaches (hprove : T.Certifies prove) (hacyclic : s.subst.Acyclic)
    (hgoal : (Goal.related rel (.app head args) right).Settled s.minted)
    (hhyps : ∀ h ∈ s.hyps, h.Settled s.minted)
    (hbatch : batch ∈ Batch.plan (T.registry.parameters.get? head) args.length) {c : Candidate}
    (hc : c.Fit T.registry s.hyps batch head s.minted)
    (hemit : ∀ r t, s.Grown t →
      r.Reaches T.registry t.minted s.hyps (.related rel (.app head args) right) →
      (emit r).Yields t S) :
    (useCandidate prove (.related rel (.app head args) right) args.length emit c).Yields s S := by
  cases hgoal with
  | related hrel hl hr =>
  refine (splitSide_splits hacyclic hl hc.left.ground).yields fun xs t ht hxs => ?_
  refine (splitSide_splits (ht.acyclic hacyclic) hr hc.right.ground).yields fun ys u hu hys => ?_
  obtain ⟨hxs, f, as, hcleft, hleft⟩ := hxs
  obtain ⟨hys, g, bs, hcright, rfl⟩ := hys
  cases hleft
  obtain ⟨-, hoffered⟩ := hc.offered as hcleft
  rw [hcright] at hoffered
  rw [Term.settled_app, List.forall_mem_append] at hl hr
  refine eliminateAll_passes hc.rel fun reached owed helim => ?_
  have hclears := helim.clears hc.rel
  have hsu : s.Grown u := ht.trans hu
  refine bridge_crosses hprove (hsu.acyclic hacyclic) ?_ hclears.reached hrel
    fun e v hv howed hincluded => ?_
  · rw [hsu.hyps]
    exact fun h hh => (hhyps h hh).of_le hsu.minted
  · refine hemit _ v (hsu.trans hv) (Reduction.Reaches.of_le ⟨?_, fun hprovable => ?_⟩
      (hsu.trans hv).minted)
    · simp only [howed, List.nil_append]
      exact hclears.settled fun a b hab =>
        ⟨hl.2.2 a (List.of_mem_zip hab).1, hr.2.2 b (List.of_mem_zip hab).2⟩
    · simp only [howed, List.nil_append] at hprovable
      obtain ⟨i, hi⟩ := exists_bound (P := fun n g => Provable T.registry n s.hyps g)
        (fun g n m hm h => h.mono hm) hprovable
      obtain ⟨j, hj⟩ := hincluded
      refine ⟨max i j + 1, .monotone hbatch hoffered (hxs.trans hys.symm) helim ?_ fun g hg => ?_⟩
      · exact hj.mono (le_max_right ..)
      · exact (hi g hg).mono (le_max_left ..)

theorem tryBatches_reaches (hreg : T.registry.Simple) (hprove : T.Certifies prove) {r : State}
    (hacyclic : r.subst.Acyclic)
    (hgoal : (Goal.related rel (.app head args) right).Settled r.minted)
    (hhyps : ∀ h ∈ r.hyps, h.Settled r.minted) {batches : List Batch}
    (hbatches : ∀ b ∈ batches, b ∈ Batch.plan (T.registry.parameters.get? head) args.length)
    (hr : r.Kept s)
    (hemit : ∀ red t, r.Grown t →
      red.Reaches T.registry t.minted r.hyps (.related rel (.app head args) right) →
      (emit red).Yields t S) :
    (tryBatches T prove (.related rel (.app head args) right) .left head args.length emit batches
      best).Yields s S := by
  have hscope {t : State} (ht : r.Kept t) : ∀ h ∈ t.hyps, h.Settled t.minted := by
    rw [ht.hyps]
    exact fun h hh => (hhyps h hh).of_le ht.grown.minted
  induction batches generalizing s best with
  | nil => exact .failBest .noCandidate
  | cons batch rest ih =>
    rw [List.forall_mem_cons] at hbatches
    refine (probe_gets.and (probe_fit hreg (hscope hr))).yields fun cs t _ hcs => ?_
    obtain ⟨⟨ht, -⟩, hcs⟩ := hcs
    refine tryEach_yields (fun c hc u hu => ?_) fun best u hu => ?_
    · have hsu : s.Kept u := ht.trans hu
      have hru : r.Kept u := hr.trans hsu
      have hfit := (hcs c hc).of_le hsu.grown.minted
      rw [hr.hyps, ← hru.hyps] at hfit
      refine useCandidate_reaches hprove (hru.grown.acyclic hacyclic)
        (hgoal.of_le hru.grown.minted) (hscope hru) hbatches.1 hfit fun red v hv hreaches => ?_
      rw [hru.hyps] at hreaches
      exact hemit red v (hru.grown.trans hv) hreaches
    · exact ih hbatches.2 ((hr.trans ht).trans hu)

end Candidates

/-! ## The rules -/

section Rules

variable {emit : Reduction → Search ρ}

theorem arrowIntro_reaches (hreg : T.registry.Tidy) (hprove : T.Certifies prove)
    (hacyclic : s.subst.Acyclic) (hgoal : (Goal.related rel left right).Settled s.minted)
    (hhyps : ∀ h ∈ s.hyps, h.Settled s.minted)
    (hemit : ∀ r t, s.Grown t → r.Reaches T.registry t.minted s.hyps (.related rel left right) →
      (emit r).Yields t S) :
    (arrowIntro prove (.related rel left right) emit).Yields s S := by
  cases hgoal with
  | related hrel hl hr =>
  obtain ⟨f, xs, rfl⟩ := hl.exists_app
  obtain ⟨g, ys, rfl⟩ := hr.exists_app
  have hgoal : (Goal.related rel (.app f xs) (.app g ys)).Settled s.minted := .related hrel hl hr
  refine Yields.subst ?_
  rw [(Term.leaves_of_ground hrel.ground s.subst).view_eq]
  cases hview : rel.view with
  | arrow dom cod =>
    refine freshConst_gets.yields fun x t₁ _ h₁ => freshConst_gets.yields fun y t₂ _ h₂ => ?_
    refine applied_gets.yields fun sides t₃ _ h₃ => freshConst_gets.yields fun h t₄ _ h₄ => ?_
    obtain ⟨hk₁, hm₁, rfl⟩ := h₁
    obtain ⟨hk₂, hm₂, rfl⟩ := h₂
    obtain ⟨rfl, hfx, hgy⟩ := h₃
    obtain ⟨hk₄, hm₄, rfl⟩ := h₄
    have hk : s.Kept t₄ := (hk₁.trans hk₂).trans hk₄
    obtain ⟨hbody, hscope⟩ := hgoal.body (.minting "h" t₃.minted) hview hhyps
    rw [(Term.leaves_of_ground hl.ground _).walk_eq] at hfx
    rw [(Term.leaves_of_ground hr.ground _).walk_eq] at hgy
    simp only [Term.extend?, Option.some.injEq] at hfx hgy
    rw [← hfx, ← hgy, hm₁]
    refine hprove.proveAssuming (hk.grown.acyclic hacyclic) (hbody.of_le (by omega)) ?_ ?_
    · rw [hk.hyps]
      exact fun h hh => (hscope h hh).of_le (by omega)
    · intro p t ht hprovable
      rw [hk.hyps] at hprovable
      obtain ⟨n, hn⟩ := hprovable
      refine hemit _ t (hk.grown.trans ht) (Reduction.reaches_of_provable ⟨n + 1, ?_⟩)
      exact hn.arrow_of_new hreg hview hgoal hhyps
  | _ => exact .noRule

theorem eqRefl_reaches (hview : rel.view = .equality) (hl : left.Settled s.minted)
    (hr : right.Settled s.minted) :
    (eqRefl (.related rel left right)).Gets s fun r t =>
      r.Reaches T.registry t.minted s.hyps (.related rel left right) := by
  refine Gets.subst ?_
  split
  · next heq =>
    rw [(Term.leaves_of_ground hl.ground _).resolve_eq,
      (Term.leaves_of_ground hr.ground _).resolve_eq] at heq
    subst heq
    exact .pure (Reduction.reaches_of_provable ⟨0, .equal hview⟩)
  · exact .noRule

theorem flipIntro_reaches (hgoal : (Goal.related rel left right).Settled s.minted) :
    (flipIntro (.related rel left right)).Gets s fun r t =>
      r.Reaches T.registry t.minted s.hyps (.related rel left right) := by
  cases hgoal with
  | related hrel hl hr =>
  refine Gets.subst ?_
  rw [(Term.leaves_of_ground hrel.ground s.subst).view_eq]
  cases hview : rel.view with
  | flip inner =>
    have hinner : inner.PlainGround := hrel.of_mem_parts (by simp [hview, View.parts])
    refine .pure ⟨List.forall_mem_singleton.2 (.related hinner hr hl), fun hprovable => ?_⟩
    obtain ⟨n, hn⟩ := List.forall_mem_singleton.1 hprovable
    exact ⟨n + 1, .flip hview hn⟩
  | _ => exact .noRule

theorem eqCongruence_reaches (hview : rel.view = .equality)
    (hgoal : (Goal.related rel left right).Settled s.minted) :
    (eqCongruence (.related rel left right)).Gets s fun r t =>
      r.Reaches T.registry t.minted s.hyps (.related rel left right) := by
  cases hgoal with
  | related hrel hl hr =>
  refine Gets.subst ?_
  rw [(Term.leaves_of_ground hl.ground s.subst).walk_eq,
    (Term.leaves_of_ground hr.ground s.subst).walk_eq]
  split
  · next f xs g ys =>
    rw [Term.settled_app] at hl hr
    split
    · next h =>
      obtain ⟨rfl, hlen, hne⟩ := h
      refine .pure ⟨List.forall_mem_map.2 ?_, fun hprovable => ?_⟩
      · rintro ⟨x, y⟩ hxy
        exact .related hrel (hl.2 x (List.of_mem_zip hxy).1) (hr.2 y (List.of_mem_zip hxy).2)
      · obtain ⟨n, hn⟩ := exists_bound (P := fun n g => Provable T.registry n s.hyps g)
          (fun g n m hm h => h.mono hm) hprovable
        refine ⟨n + 1, .congruence hview hlen hne fun x y hxy => hn _ ?_⟩
        exact List.mem_map.2 ⟨(x, y), hxy, rfl⟩
    · exact .noRule
  · exact .noRule

theorem eqUnify_reaches (hview : rel.view = .equality) (hacyclic : s.subst.Acyclic)
    (hl : left.Settled s.minted) (hr : right.Settled s.minted) :
    (eqUnify (.related rel left right)).Gets s fun r t =>
      r.Reaches T.registry t.minted s.hyps (.related rel left right) := by
  refine Gets.unify (fun t _ hunify => ?_) fun _ _ => .noRule
  obtain rfl := eq_of_unified hacyclic (Subst.unified_one hunify) List.mem_cons_self hl.ground
    hr.ground
  exact .pure (Reduction.reaches_of_provable ⟨0, .equal hview⟩)

/-- There is no case analysis in a settled term that could be reduced. -/
theorem taken?_eq_none (h : left.Settled n) (σ : Subst) : taken? σ left = none := by
  obtain ⟨f, xs, rfl⟩ := h.exists_app
  simp [taken?, (Term.leaves_of_ground h.ground σ).walk_eq]

theorem monotone_reaches (hreg : T.registry.Simple) (hprove : T.Certifies prove) {side : Side}
    (hacyclic : s.subst.Acyclic) (hgoal : (Goal.related rel left right).Settled s.minted)
    (hhyps : ∀ h ∈ s.hyps, h.Settled s.minted)
    (hemit : ∀ r t, s.Grown t → r.Reaches T.registry t.minted s.hyps (.related rel left right) →
      (emit r).Yields t S) :
    (monotone T prove side (.related rel left right) emit).Yields s S := by
  have hsettled := hgoal
  cases hgoal with
  | related hrel hl hr =>
  obtain ⟨f, xs, rfl⟩ := hl.exists_app
  refine Yields.subst ?_
  rw [(Term.leaves_of_ground hl.ground s.subst).walk_eq]
  cases side with
  | right => exact .noRule
  | left =>
    simp only [Side.pick, (Term.leaves_of_ground hl.ground s.subst).walk_eq]
    exact tryBatches_reaches hreg hprove hacyclic hsettled hhyps (fun _ => id) (.refl s) hemit

/-- A standard rule for related terms reduces a goal to others that lead to it. -/
theorem related_reaches (hreg : T.registry.Tidy) (hlimits : T.limits.deferUnsolved = false)
    (hprove : T.Certifies prove) {rule : Rule} (hrule : rule ∈ Rule.standard)
    (hfits : rule.pattern.fits s.subst (.related rel left right) = true)
    (hacyclic : s.subst.Acyclic) (hgoal : (Goal.related rel left right).Settled s.minted)
    (hhyps : ∀ h ∈ s.hyps, h.Settled s.minted)
    (hemit : ∀ r t, s.Grown t → r.Reaches T.registry t.minted s.hyps (.related rel left right) →
      (emit r).Yields t S) :
    (rule.method.run T prove rule.name (.related rel left right) emit).Yields s S := by
  have hsettled := hgoal
  cases hgoal with
  | related hrel hl hr =>
  have hview : s.subst.view rel = rel.view := (Term.leaves_of_ground hrel.ground _).view_eq
  have hshape {shape : Shape}
      (h : (Pattern.related shape).fits s.subst (.related rel left right) = true) :
      rel.view.shape = shape := by
    simpa [Pattern.fits, hview] using h
  have hequality (h : (Pattern.related .equality).fits s.subst (.related rel left right) = true) :
      rel.view = .equality := by
    have hs := hshape h
    cases hv : rel.view <;> simp_all [View.shape]
  simp only [Rule.standard, List.mem_cons, List.not_mem_nil, or_false] at hrule
  rcases hrule with rfl | rfl | rfl | rfl | rfl | rfl | rfl | rfl | rfl | rfl | rfl | rfl | rfl |
    rfl | rfl | rfl | rfl | rfl
  · have htop : rel.view = .top := by
      have hs := hshape hfits
      cases hv : rel.view <;> simp_all [View.shape]
    exact hemit _ s (.refl s) (Reduction.reaches_of_provable ⟨0, .top htop⟩)
  · exact (eqRefl_reaches (hequality hfits) hl hr).yields hemit
  · exact (flipIntro_reaches hsettled).yields hemit
  · exact arrowIntro_reaches hreg hprove hacyclic hsettled hhyps hemit
  · have hdependent := hshape hfits
    cases hv : rel.view with
    | dependent edge family => exact (hrel.plain.view_ne_dependent _ _ hv).elim
    | _ => simp [hv, View.shape] at hdependent
  · have hnone : (casesReduce (.related rel left right)).Gets s fun _ _ => False := by
      refine Gets.subst ?_
      rw [taken?_eq_none hl, taken?_eq_none hr]
      exact .noRule
    exact hnone.yields fun r t _ h => h.elim
  -- the rules for inclusions are not for this goal
  iterate 5 cases hfits
  · obtain ⟨f, xs, rfl⟩ := hl.exists_app
    simp [Pattern.fits, (Term.leaves_of_ground hl.ground s.subst).walk_eq, Term.asCases?] at hfits
  · exact monotone_reaches hreg.toSimple hprove hacyclic hsettled hhyps hemit
  · exact monotone_reaches hreg.toSimple hprove hacyclic hsettled hhyps hemit
  · exact (eqCongruence_reaches (hequality hfits) hsettled).yields hemit
  · exact (eqUnify_reaches (hequality hfits) hacyclic hl hr).yields hemit
  · have hplaceholder := hshape hfits
    cases hv : rel.view with
    | placeholder i => exact (Term.view_ne_placeholder hrel.ground i hv).elim
    | _ => simp [hv, View.shape] at hplaceholder
  · refine deferUnsolved_gets.yields fun r t _ hr => ?_
    rw [hr.1] at hlimits
    cases hlimits

end Rules

/-! ## The solver -/

/-- A rule for inclusions reduces one to others that lead to it. -/
theorem subrel_reaches (hreg : T.registry.Simple) (hlimits : T.limits.deferUnsolved = false)
    {emit : Reduction → Search ρ} {lesser greater : Term} {name : String} {method : Method}
    (hmethod : method ∈ Method.ordering) (hl : lesser.PlainGround) (hg : greater.PlainGround)
    (hacyclic : s.subst.Acyclic)
    (hemit : ∀ r t, s.Grown t → r.Reaches T.registry t.minted s.hyps (.subrel lesser greater) →
      (emit r).Yields t S) :
    (method.run T prove name (.subrel lesser greater) emit).Yields s S := by
  have horder : T.registry.PlainGroundOrder := fun f hf =>
    ⟨(hreg.inclusions f hf).1.plainGround, (hreg.inclusions f hf).2.plainGround⟩
  refine ordering_steps hmethod horder hlimits hl hg hacyclic fun r t ht hsteps => ?_
  refine hemit r t ht ⟨fun g hmem => ?_, fun hprovable => ?_⟩
  · have hadmitted := hsteps.admitted g hmem
    cases g with
    | related rel left right => exact hadmitted.elim
    | subrel a b => exact .subrel hadmitted.1 hadmitted.2
  · have hderivable : ∀ g ∈ r.subgoals, g.Derivable T.registry := by
      intro g hmem
      have hadmitted := hsteps.admitted g hmem
      obtain ⟨n, hn⟩ := hprovable g hmem
      cases hn with
      | subrel h => exact ⟨n, h⟩
      | _ => exact hadmitted.elim
    obtain ⟨n, hn⟩ := hsteps.derivable hderivable
    exact ⟨n, .subrel hn⟩

/-- The solver with standard rules hands on proofs of what is provable only. -/
theorem solve_certifies (hrules : ∀ rule ∈ T.rules, rule ∈ Rule.standard) (hreg : T.registry.Tidy)
    (hlimits : T.limits.deferUnsolved = false) (room : Nat) : T.Certifies (solve T room) := by
  induction room with
  | zero => exact fun {_ _ _ s _} _ _ _ _ => State.Grown.refl s
  | succ room ih =>
    intro ρ goal k s S hacyclic hgoal hhyps hk
    refine Restores.yields (Restores.ledger ?_)
    split
    · exact State.Kept.refl s
    · refine Restores.subst ?_
      rw [hgoal.resolve_eq]
      refine solveResolved_restores fun rule hrule hfits t ht => ?_
      have hsubst : t.subst = s.subst := ht.subst
      have hscope : t.hyps = s.hyps := ht.hyps
      have hm : s.minted ≤ t.minted := ht.grown.minted
      have hacyclic' : t.subst.Acyclic := ht.grown.acyclic hacyclic
      have hgoal' := hgoal.of_le hm
      have hhyps' : ∀ h ∈ t.hyps, h.Settled t.minted := by
        rw [hscope]
        exact fun h hh => (hhyps h hh).of_le hm
      have hemit (r : Reduction) (u : State) (hu : t.Grown u)
          (hr : r.Reaches T.registry u.minted t.hyps goal) :
          (proveAll (solve T room) (fun ps => outside goal (k (.step rule.name ps))) r.subgoals
            r.premises).Yields u S := by
        refine ih.proveAll (hu.acyclic hacyclic') hr.settled ?_ fun ps v hv hprovable => ?_
        · rw [hu.hyps]
          exact fun h hh => (hhyps' h hh).of_le hu.minted
        · have hsv : (s.enter goal).Grown v := ht.grown.trans (hu.trans hv)
          rw [hu.hyps] at hprovable
          have hholds := hr.provable hprovable
          rw [hscope] at hholds
          exact .outside hsv (hk _ v.leave hsv.of_enter hholds)
      rw [← hsubst] at hfits
      cases hgoal' with
      | related hrel hl hr =>
        exact related_reaches hreg hlimits ih (hrules rule hrule) hfits hacyclic'
          (.related hrel hl hr) hhyps' hemit
      | subrel hl hg =>
        have hlibrary : T.Library := fun rule hrule => .inl (hrules rule hrule)
        exact subrel_reaches hreg.toSimple hlimits (hlibrary.mem_ordering hrule hfits) hl hg
          hacyclic' hemit

namespace Engine

variable {E : Engine} {sol : Solution}

/-- If no limit was met, then a goal in simple terms holds if and only if it has a derivation. -/
theorem holds_iff_provable (hE : ∀ rule ∈ E.theory.rules, rule ∈ Rule.standard)
    (hrules : E.theory.Stocked) (hreg : E.theory.registry.Tidy)
    (hlimits : E.theory.limits.deferUnsolved = false) (hgoal : ∀ t ∈ goal.terms, t.Simple)
    (h : (E.solve goal).1.result = .ok sol) (hcause : ∀ why ∈ sol.failure?, why.isExhausted = false)
    (hsteps : sol.stats.steps < E.theory.limits.fuel) :
    sol.holds = true ↔ goal.ProvableFrom E.theory.registry [] := by
  have hlibrary : E.theory.Library := fun rule hrule => .inl (hE rule hrule)
  constructor
  · intro hholds
    obtain ⟨bound, -, ⟨p, final, hrun, rfl⟩ | ⟨why, final, hrun, rfl⟩⟩ := solve_eq_ok h
    · have hsearch : (E.search goal).Yields (E.start bound) fun _ _ =>
          goal.ProvableFrom E.theory.registry [] :=
        solve_certifies hE hreg hlimits _ Subst.acyclic_empty (Goal.settled_of_simple hgoal _)
          (by simp [start]) fun _ _ _ hprovable => hprovable
      exact hsearch.of_success hrun
    · cases hholds
  · rintro ⟨n, hn⟩
    refine holds_of_prevails h (fun bound => Sure.prevails ?_) hcause hsteps
    exact hn.sure hlibrary hrules hreg (Goal.settled_of_simple hgoal _) (by simp [start])
      Subst.acyclic_empty (by simp [start]) fun _ _ _ => .pure

end Engine

end Monotonicity
