import Monotonicity.Proofs.Calculus.Elimination

/-!
# Facts and hypotheses are used as the calculus prescribes

A look-up finds facts and hypotheses only. Lining one up with the goal makes the goal's sides
applications of its sides; eliminating the further arguments and bridging to the goal's relation
adds derivations to the premises and goals to those that are owed.
-/

namespace Monotonicity

open Search

variable {T : Theory} {ρ : Type} {s t : State} {S : ρ → State → Prop} {goal : Goal}
  {side : Side} {head : String} {batch : Batch} {c : Candidate} {prove : Prover}

/-! ## Looking up -/

/-- What a look-up may find: a hypothesis or a fact, the latter renamed to placeholders from `first`
on. -/
inductive Found (T : Theory) (τ : Subst) (hyps : List Hypothesis) (first : Nat) (side : Side)
    (head : String) (batch : Batch) : Candidate → Prop
  | hypothesis {i : Nat} {h : Hypothesis} {args : List Term} (hh : hyps[i]? = some h)
      (hside : τ.walk (side.pick h.left h.right) = .app head args)
      (hcovers : batch.covers args.length = true) :
      Found T τ hyps first side head batch
        ⟨.hypothesis i, h.rel, h.left, h.right, h.witness, args.length⟩
  | fact {id offset : Nat} {fact : Fact} {f : String} {args : List Term}
      (hfact : T.registry.facts[id]? = some fact) (hside : fact.side side = .app f args)
      (hcovers : batch.covers args.length = true) (hoffset : first ≤ offset) :
      Found T τ hyps first side head batch
        ⟨.fact id, (fact.rename offset).rel, (fact.rename offset).left,
          (fact.rename offset).right, (fact.rename offset).witness, args.length⟩

theorem Found.covers {τ : Subst} {hyps : List Hypothesis} {first : Nat}
    (h : Found T τ hyps first side head batch c) : batch.covers c.consumed = true := by
  cases h with
  | hypothesis _ _ hcovers => exact hcovers
  | fact _ _ hcovers _ => exact hcovers

theorem Found.of_later {τ : Subst} {hyps : List Hypothesis} {first later : Nat}
    (h : Found T τ hyps later side head batch c) (hle : first ≤ later) :
    Found T τ hyps first side head batch c := by
  cases h with
  | hypothesis hh hside hcovers => exact .hypothesis hh hside hcovers
  | fact hfact hside hcovers hoffset => exact .fact hfact hside hcovers (hle.trans hoffset)

/-- What was found is a leaf that may be used at every later stage. -/
theorem Found.proposes {σ τ : Subst} {hyps : List Hypothesis} {first : Nat} (hσ : σ.Acyclic)
    (hle : τ ≤ σ) (h : Found T τ hyps first side head batch c) :
    Proposes T σ (hyps.map (·.resolve σ)) side head c.proof (σ.resolve c.rel) (σ.resolve c.left)
      (σ.resolve c.right) c.consumed := by
  cases h with
  | @hypothesis i h args hh hside hcovers =>
    have hh' : (hyps.map (·.resolve σ))[i]? = some (h.resolve σ) := by simp [hh]
    have hside' : side.pick (h.resolve σ).left (h.resolve σ).right =
        .app head (args.map σ.resolve) := by
      have hpick : side.pick (h.resolve σ).left (h.resolve σ).right =
          σ.resolve (side.pick h.left h.right) := by
        cases side <;> rfl
      rw [hpick, ← hσ.resolve_walk hle, hside, hσ.resolve_app]
    have hp := Proposes.hypothesis (T := T) (σ := σ) hh' hside'
    rwa [List.length_map] at hp
  | fact hfact hside _ _ => exact .fact hfact hside

theorem mem_of_mem_insert {d : Candidate} {cs : List Candidate} (h : c ∈ Candidate.insert d cs) :
    c = d ∨ c ∈ cs := by
  induction cs with
  | nil => simpa [Candidate.insert] using h
  | cons e rest ih =>
    unfold Candidate.insert at h
    split at h
    · simpa using h
    · rcases List.mem_cons.1 h with rfl | h
      · simp
      · rcases ih h with rfl | h <;> simp_all

theorem mem_of_mem_arrange {cs : List Candidate} (h : c ∈ batch.arrange cs) : c ∈ cs := by
  cases batch with
  | exact k => exact h
  | parameters p k =>
    induction cs with
    | nil => exact h
    | cons d rest ih =>
      rcases mem_of_mem_insert h with rfl | h
      · exact List.mem_cons_self
      · exact List.mem_cons_of_mem _ (ih h)

namespace Search

theorem found_of_mem_hypothesisCandidates {τ : Subst} {hyps : List Hypothesis} {first : Nat}
    (h : c ∈ hypothesisCandidates τ side head batch hyps) :
    Found T τ hyps first side head batch c := by
  obtain ⟨⟨h, i⟩, hmem, hc⟩ := List.mem_filterMap.1 h
  dsimp only at hc
  split at hc
  · next f args hwalk =>
    split at hc
    · next hf =>
      obtain ⟨rfl, hcovers⟩ := hf
      cases hc
      exact .hypothesis (List.mem_zipIdx_iff_getElem?.1 hmem) hwalk hcovers
    · cases hc
  · cases hc

theorem factCandidates_gets (τ : Subst) (hyps : List Hypothesis) (head : String) {ids : List Nat} :
    (factCandidates T side batch ids).Gets s fun cs t => s.Kept t ∧
      ∀ c ∈ cs, Found T τ hyps s.ledger.nextVar side head batch c := by
  induction ids generalizing s with
  | nil => exact .pure ⟨.refl s, by simp⟩
  | cons id rest ih =>
    unfold factCandidates
    split
    · next fact hfact =>
      split
      · next f args hside =>
        split
        · next hcovers =>
          refine reserve_gets.bind fun offset t _ ht => ih.bind fun cs u _ hu => .pure ?_
          refine ⟨ht.1.trans hu.1, List.forall_mem_cons.2 ⟨?_, fun c hc => ?_⟩⟩
          · exact .fact hfact hside hcovers ht.2.2.ge
          · exact (hu.2 c hc).of_later ht.1.ledger.nextVar
        · exact ih
      · exact ih
    · exact ih

/-- A look-up changes nothing but the ledger. -/
theorem probe_gets :
    (probe T side head batch).Gets s fun cs t => s.Kept t ∧
      ∀ c ∈ cs, Found T s.subst s.hyps s.ledger.nextVar side head batch c := by
  refine (count_gets fun n => by simp [Stats.le_def]).bind fun _ t _ ht => ?_
  refine Gets.subst (Gets.hyps ?_)
  refine (factCandidates_gets s.subst s.hyps head).bind fun facts u _ hu => .pure ?_
  refine ⟨ht.1.trans hu.1, fun c hc => ?_⟩
  rcases List.mem_append.1 hc with hc | hc
  · rw [← ht.1.subst, ← ht.1.hyps]
    exact found_of_mem_hypothesisCandidates (mem_of_mem_arrange hc)
  · exact (hu.2 c (mem_of_mem_arrange hc)).of_later ht.1.ledger.nextVar

/-! ## Lining a candidate up -/

theorem applyArm?_app {xs ys : List Term} :
    applyArm? (.app head xs) ys = some (.app head (xs ++ ys)) := by
  cases ys <;> simp [applyArm?, Term.extend?]

/-- The side becomes the base applied to the arguments that are split off. -/
theorem splitSide_gets {term base : Term} {extra : Nat} :
    (splitSide goal term base extra).Gets s fun xs t => xs.length = extra ∧
      ∀ σ : Subst, σ.Acyclic → t.subst ≤ σ →
        applyArm? (σ.resolve base) (xs.map σ.resolve) = some (σ.resolve term) := by
  refine Gets.subst ?_
  split
  · next i hwalk =>
    refine freshVars_gets.bind fun xs t₁ _ h₁ => ?_
    refine (Gets.require .noCandidate).bind fun value t₂ _ h₂ => ?_
    obtain ⟨hk₁, -, hlen, -⟩ := h₁
    obtain ⟨hvalue, rfl⟩ := h₂
    refine Gets.unify (fun t₃ h₃ hu => .pure ⟨hlen, fun σ hσ hle => ?_⟩) fun _ _ => .noCandidate
    have hs : s.subst ≤ σ := Subst.le_trans (hk₁.grown.trans h₃).subst hle
    have hterm : σ.resolve term = σ.resolve value := by
      rw [← hσ.resolve_walk hs, hwalk]
      exact (Subst.unify_gains hu).resolve_eq hσ hle
    rw [hterm]
    split at hvalue
    · next hzero =>
      cases hvalue
      obtain rfl : xs = [] := List.length_eq_zero_iff.1 (hlen.trans hzero)
      rfl
    · next hpos =>
      have hne : (xs.map σ.resolve).isEmpty = false := by
        cases xs with
        | nil => exact (hpos hlen.symm).elim
        | cons x xs => rfl
      have hext := Term.extend?_subst (f := σ.value) hvalue
      rw [applyArm?, hne, ← hσ.resolve_walk hs]
      simpa [hσ.resolve_eq_subst, funext hσ.resolve_eq_subst] using hext
  · next head args hwalk =>
    split
    · exact .noCandidate
    · next hlen =>
      dsimp only
      refine Gets.unify (fun t ht hu => .pure ⟨by simp; omega, fun σ hσ hle => ?_⟩)
        fun _ _ => .noCandidate
      have hs : s.subst ≤ σ := Subst.le_trans ht.subst hle
      have hbase := (Subst.unify_gains hu).resolve_eq hσ hle
      rw [← hσ.resolve_walk hs term, hwalk, ← hbase, hσ.resolve_app, hσ.resolve_app,
        applyArm?_app, ← List.map_append, List.take_append_drop]
  · exact .noCandidate

/-! ## Monotonicity -/

theorem useCandidate_yields {r : State} {rel left right : Term} {args : List Term}
    {emit : Reduction → Search ρ} (hprove : (replay T).Met prove)
    (hright : r.subst.Acyclic → side = .right → ∃ i, left = .var i)
    (hside : r.subst.Acyclic → side.pick left right = .app head args)
    (hbatch : batch ∈ Batch.plan (T.registry.parameters.get? head) args.length)
    {first : Nat} (hc : Found T r.subst r.hyps first side head batch c) (hr : r.Grown s)
    (hemit : ∀ red t, Offered T r (.monotone side) (.related rel left right) red t →
      (emit red).Yields t S) :
    (useCandidate prove (.related rel left right) args.length emit c).Yields s S := by
  refine splitSide_gets.yields fun xs t₁ h₁ hxs => splitSide_gets.yields fun ys t₂ h₂ hys => ?_
  refine eliminateAll_yields hprove fun e t₃ h₃ => ?_
  refine bridge_yields hprove fun e' t₄ h₄ hsubgoals hbridge => hemit _ t₄ ?_
  have hr₂ : r.Grown t₂ := (hr.trans h₁).trans h₂
  have hr₃ : r.Grown t₃ := hr₂.trans h₃.grown
  refine ⟨hr₃.trans h₄, fun σ w hσ hle hw => ?_⟩
  have hle₃ := Subst.le_trans h₄.subst hle
  have hle₂ := Subst.le_trans h₃.grown.subst hle₃
  obtain ⟨m, edges, owed, hm, helim, hpremises, hgoals, hedges⟩ :=
    h₃.cost σ w hσ hle₃ (h₄.delayed.trans hw)
  obtain ⟨premises, hb, hpremises', hcrossed⟩ := hbridge σ w m hσ hle hw hm
  rw [hr₂.hyps] at hedges
  rw [hr₃.hyps] at hcrossed
  have hacyclic := hσ.of_le (Subst.le_trans hr₂.subst hle₂)
  refine ⟨t₂.minted, m, .leaf c.proof :: edges ++ premises, hr₂.minted,
    hm.trans h₄.minted, ?_, (allDerived_leaf hedges).append hcrossed, fun rest hrest => ?_⟩
  · simp [hpremises', hpremises, Premise.proof]
  · rw [hsubgoals, hgoals] at hrest
    have hpairs : ((xs.zip ys).map fun p => (σ.resolve p.1, σ.resolve p.2)) =
        (xs.map σ.resolve).zip (ys.map σ.resolve) := (List.zip_map ..).symm
    rw [hpairs] at helim
    refine .monotone (hright hacyclic) (hside hacyclic)
      (hc.proposes hσ (Subst.le_trans hr₂.subst hle₂)) ⟨batch, hbatch, hc.covers⟩ ?_ ?_
      (hxs.2 σ hσ (Subst.le_trans h₂.subst hle₂)) (hys.2 σ hσ hle₂) helim hb hrest
    · rw [List.length_map, hxs.1]
    · rw [List.length_map, hys.1]

theorem tryBatches_yields {r : State} {rel left right : Term} {args : List Term}
    {emit : Reduction → Search ρ} (hprove : (replay T).Met prove)
    (hright : r.subst.Acyclic → side = .right → ∃ i, left = .var i)
    (hside : r.subst.Acyclic → side.pick left right = .app head args) {batches : List Batch}
    {best : Option Failure}
    (hbatches : ∀ b ∈ batches, b ∈ Batch.plan (T.registry.parameters.get? head) args.length)
    (hr : r.Kept s)
    (hemit : ∀ red t, Offered T r (.monotone side) (.related rel left right) red t →
      (emit red).Yields t S) :
    (tryBatches T prove (.related rel left right) side head args.length emit batches best).Yields
      s S := by
  induction batches generalizing s best with
  | nil => exact .failBest .noCandidate
  | cons batch rest ih =>
    refine probe_gets.yields fun found t _ h => ?_
    obtain ⟨hk, hfound⟩ := h
    rw [hr.subst, hr.hyps] at hfound
    refine tryEach_yields (fun c hc u hu => ?_) fun best u hu => ?_
    · exact useCandidate_yields hprove hright hside (hbatches batch List.mem_cons_self)
        (hfound c hc) ((hr.trans hk).trans hu).grown hemit
    · exact ih (fun b hb => hbatches b (List.mem_cons_of_mem _ hb)) ((hr.trans hk).trans hu)

end Search

theorem faithful_monotone (side : Side) : Faithful T (.monotone side) := by
  intro prove hprove ρ name goal emit s S hleft hemit
  cases goal with
  | subrel lesser greater => exact .noRule
  | related rel left right =>
    refine Yields.subst ?_
    split
    · exact .noRule
    · next hside =>
      split
      · next head args hwalk =>
        refine tryBatches_yields hprove (fun hs hr => ?_) (fun hs => ?_) (fun _ => id) (.refl s)
          hemit
        · obtain ⟨-, hl, -⟩ := Goal.left_related.1 (hleft hs)
          rw [hl.walk_eq] at hside
          cases left with
          | var i => exact ⟨i, rfl⟩
          | app f xs => exact (hside ⟨hr, rfl⟩).elim
          | cases t arms => exact (hside ⟨hr, rfl⟩).elim
        · obtain ⟨-, hl, hr⟩ := Goal.left_related.1 (hleft hs)
          cases side with
          | left => exact hl.walk_eq.symm.trans hwalk
          | right => exact hr.walk_eq.symm.trans hwalk
      · exact .noCandidate

end Monotonicity
