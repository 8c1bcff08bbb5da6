import Mathlib.Data.List.Basic
import Monotonicity.Proofs.Renaming.Rules

/-!
# Candidates under other names

Facts are renamed apart for each use and so are shifted with everything else; hypotheses carry the
names of the search they belong to. The look-ups find the same candidates in the same order.
-/

namespace Monotonicity

open Search

variable {T : Theory} {r : Renaming} {ρ : Type} {goal : Goal} {prove : Prover} {g : ρ → ρ}

/-! ## Looking up -/

instance : SMul Renaming Candidate :=
  ⟨fun r c => { c with
    rel := r • c.rel, left := r • c.left, right := r • c.right, witness := r • c.witness }⟩

@[simp] theorem Candidate.consumed_smul (c : Candidate) : (r • c).consumed = c.consumed := rfl

@[simp] theorem Candidate.proof_smul (c : Candidate) : (r • c).proof = r • c.proof := by
  obtain ⟨source, rel, left, right, witness, consumed⟩ := c
  cases source <;> rfl

theorem Candidate.insert_smul (c : Candidate) (cs : List Candidate) :
    insert (r • c) (cs.map (r • ·)) = (c.insert cs).map (r • ·) := by
  induction cs with
  | nil => rfl
  | cons d cs ih =>
    simp only [List.map_cons, insert, consumed_smul, ih]
    split <;> rfl

theorem Batch.arrange_smul (batch : Batch) (cs : List Candidate) :
    batch.arrange (cs.map (r • ·)) = (batch.arrange cs).map (r • ·) := by
  cases batch with
  | exact k => rfl
  | parameters p k =>
    simp only [arrange, Candidate.longestFirst]
    induction cs with
    | nil => rfl
    | cons c cs ih => rw [List.map_cons, List.foldr_cons, ih, Candidate.insert_smul, List.foldr_cons]

theorem hypothesisCandidates_smul (hr : r.Proper) (σ : Subst) (side : Side) (head : String)
    (batch : Batch) (hyps : List Hypothesis) :
    hypothesisCandidates (r • σ) side (r.name head) batch (hyps.map (r • ·)) =
      (hypothesisCandidates σ side head batch hyps).map (r • ·) := by
  simp only [hypothesisCandidates, List.zipIdx_map, List.filterMap_map, List.map_filterMap]
  refine List.filterMap_congr fun x _ => ?_
  obtain ⟨h, i⟩ := x
  have hside : side.pick (r • h).left (r • h).right = r • side.pick h.left h.right :=
    Side.pick_smul side h.left h.right
  simp only [Function.comp_apply, Prod.map_apply, id, hside, Subst.walk_smul]
  cases σ.walk (side.pick h.left h.right) with
  | app f args =>
    by_cases hfits : f = head ∧ batch.covers args.length = true
    · simp [hfits]
      rfl
    · simp [hr.injective.eq_iff, hfits]
  | var i => rfl
  | cases s arms => simp

instance : SMul Renaming Elimination :=
  ⟨fun r e => ⟨r • e.rel, e.premises.map (r • ·), e.subgoals.map (r • ·)⟩⟩

@[simp] theorem Search.Elimination.smul_mk (rel : Term) (premises : List Proof)
    (subgoals : List Goal) :
    r • Elimination.mk rel premises subgoals =
      ⟨r • rel, premises.map (r • ·), subgoals.map (r • ·)⟩ := rfl

@[simp] theorem Search.Elimination.smul_owing (e : Elimination) (rel : Term) (goal : Goal) :
    r • e.owing rel goal = (r • e).owing (r • rel) (r • goal) := by
  cases e
  simp [owing]

@[simp] theorem Search.Elimination.smul_via (e : Elimination) (rel : Term) (p : Proof) :
    r • e.via rel p = (r • e).via (r • rel) (r • p) := by
  cases e
  simp [via]

namespace Theory.Untouched

theorem factCandidates (hT : T.Untouched r) (side : Side) (batch : Batch) (ids : List Nat) :
    Mirrors r (·.map (r • ·)) (factCandidates T side batch ids)
      (Search.factCandidates T side batch ids) := by
  induction ids with
  | nil => exact .pure rfl
  | cons id ids ih =>
    rw [Search.factCandidates]
    split
    · next fact hfact =>
      split
      · refine .ite Iff.rfl ?_ ih
        refine (Mirrors.reserve fact.schematic).bind fun offset => ih.bind fun cs => .pure ?_
        obtain ⟨hrel, hleft, hright, hwitness⟩ := hT.facts fact (Array.mem_of_getElem? hfact)
        simp only [Fact.rename, List.map_cons, ← Term.rename_smul hrel, ← Term.rename_smul hleft,
          ← Term.rename_smul hright, ← Term.rename_smul hwitness]
        rfl
      · exact ih
    · exact ih

theorem probe (hT : T.Untouched r) (side : Side) (head : String) (batch : Batch) :
    Mirrors r (·.map (r • ·)) (probe T side head batch)
      (Search.probe T side (r.name head) batch) := by
  refine (Mirrors.count _).bind fun _ => Mirrors.subst fun σ => Mirrors.hyps fun hyps => ?_
  simp only [hT.byShape, hT.byHead, hypothesisCandidates_smul hT.proper]
  refine (hT.factCandidates side batch _).bind fun facts => .pure ?_
  rw [Batch.arrange_smul, Batch.arrange_smul, List.map_append]

theorem splitSide (goal : Goal) (hr : r.Proper) (side base : Term) (extra : Nat) :
    Mirrors r (·.map (r • ·)) (splitSide goal side base extra)
      (Search.splitSide (r • goal) (r • side) (r • base) extra) := by
  have hstuck := Mirrors.noCandidate (r := r) (f := fun ts : List Term => ts.map (r • ·)) goal
  refine Mirrors.subst fun σ => ?_
  simp only [Subst.walk_smul]
  cases σ.walk side with
  | var i =>
    refine (Mirrors.freshVars extra).bind fun args =>
      .require (f := (r • ·)) ?_ hstuck fun value _ => ?_
    · rw [Term.extend?_smul]
      split <;> rfl
    · exact .ifUnify hr (.var i) value (.pure rfl) hstuck
  | app head args =>
    simp only [Term.smul_app, List.length_map]
    refine .ite Iff.rfl hstuck ?_
    rw [← List.map_take, ← List.map_drop]
    have h := Mirrors.ifUnify hr (.app head (args.take (args.length - extra))) base
      (.pure (a := args.drop (args.length - extra)) rfl) hstuck
    rwa [Term.smul_app] at h
  | cases s arms => simpa using hstuck

theorem edgeName (p : Proof) : Mirrors r (r • ·) (edgeName p) (Search.edgeName (r • p)) := by
  unfold Search.edgeName
  rw [Proof.witness?_smul]
  cases p.witness? with
  | some w => exact .pure rfl
  | none => exact .freshConst (by decide)

/-! ## Eliminating arguments -/

variable {k k' : Elimination → Search ρ}

theorem eliminateStraight (goal : Goal) (hr : r.Proper) (hprove : prove.Equivariant r)
    (e : Elimination) (a b : Term) (hk : ∀ e, Mirrors r g (k e) (k' (r • e))) :
    Mirrors r g (eliminateStraight prove goal e a b k)
      (Search.eliminateStraight prove (r • goal) (r • e) (r • a) (r • b) k') := by
  have hstuck := Mirrors.gap (r := r) (f := g) goal
  refine Mirrors.subst fun σ => ?_
  have hview : (r • σ).view (r • e).rel = r • σ.view e.rel := Subst.view_smul hr σ e.rel
  rw [hview]
  cases σ.view e.rel with
  | arrow dom cod => simpa using hk (e.owing cod (.related dom a b))
  | dependent edge family =>
    refine hprove fun p => (edgeName p).bind fun name => Mirrors.subst fun σ => ?_
    refine .require (Subst.family?_smul hr ..) hstuck fun rel _ => ?_
    simpa using hk (e.via rel p)
  | equality =>
    have h := hk (e.owing e.rel (.related e.rel a b))
    rwa [Elimination.smul_owing] at h
  | top => exact hk e
  | placeholder i =>
    refine Mirrors.freshVar.bind fun dom => Mirrors.freshVar.bind fun cod => ?_
    rw [← Term.smul_arrow hr]
    refine .ifUnify hr e.rel (.arrow dom cod) ?_ hstuck
    simpa using hk (e.owing cod (.related dom a b))
  | _ => exact hstuck

theorem eliminate (goal : Goal) (hr : r.Proper) (hprove : prove.Equivariant r) (e : Elimination)
    (a b : Term) (hk : ∀ e, Mirrors r g (k e) (k' (r • e))) :
    Mirrors r g (eliminate prove goal e a b k)
      (Search.eliminate prove (r • goal) (r • e) (r • a) (r • b) k') := by
  refine Mirrors.subst fun σ => ?_
  have hview : (r • σ).view (r • e).rel = r • σ.view e.rel := Subst.view_smul hr σ e.rel
  rw [hview]
  cases σ.view e.rel with
  | flip inner =>
    -- through the converse, with the sides swapped back afterwards
    have hback : Mirrors r g
        (Search.eliminateStraight prove goal { e with rel := inner } b a fun e =>
          k { e with rel := e.rel.flip })
        (Search.eliminateStraight prove (r • goal) { r • e with rel := r • inner } (r • b) (r • a)
          fun e => k' { e with rel := e.rel.flip }) := by
      refine eliminateStraight goal hr hprove { e with rel := inner } b a fun e => ?_
      have h := hk { e with rel := e.rel.flip }
      rwa [Elimination.smul_mk, Term.smul_flip hr] at h
    have hsame := eliminateStraight goal hr hprove { e with rel := inner } a b hk
    simp only [View.smul_flip, Subst.view_smul hr]
    cases σ.view inner with
    | equality => exact hsame
    | top => exact hsame
    | arrow dom cod => exact hback
    | dependent edge family => exact hback
    | placeholder i => exact hback
    | _ => exact .gap goal
  | _ => exact eliminateStraight goal hr hprove e a b hk

theorem eliminateAll (goal : Goal) (hr : r.Proper) (hprove : prove.Equivariant r)
    (hk : ∀ e, Mirrors r g (k e) (k' (r • e))) (pairs : List (Term × Term)) (e : Elimination) :
    Mirrors r g (eliminateAll prove goal k pairs e)
      (Search.eliminateAll prove (r • goal) k' (pairs.map fun p => (r • p.1, r • p.2)) (r • e)) := by
  induction pairs generalizing e with
  | nil => exact hk e
  | cons pair pairs ih => exact eliminate goal hr hprove e pair.1 pair.2 ih

theorem bridge (goal : Goal) (hr : r.Proper) (hprove : prove.Equivariant r) (wanted : Term)
    (e : Elimination) (hk : ∀ e, Mirrors r g (k e) (k' (r • e))) :
    Mirrors r g (bridge prove goal wanted e k)
      (Search.bridge prove (r • goal) (r • wanted) (r • e) k') := by
  refine Mirrors.subst fun σ => .ite ?_ (hk e) ?_
  · have hview : (r • σ).view (r • e).rel = r • σ.view e.rel := Subst.view_smul hr σ e.rel
    rw [hview, Subst.view_smul hr, View.smul_inj hr]
  · refine .bridging (fun k k' hk => ?_) (fun p => ?_) fun crossed why => ?_
    · exact hprove hk
    · simpa using hk (e.via wanted p)
    · exact .ite (by simp) .fail (.gap goal)

/-! ## Monotonicity -/

theorem useCandidate (hr : r.Proper) (hprove : prove.Equivariant r) (arity : Nat)
    {emit emit' : Reduction → Search ρ} (hemit : ∀ d, Mirrors r g (emit d) (emit' (r • d)))
    (c : Candidate) :
    Mirrors r g (useCandidate prove goal arity emit c)
      (Search.useCandidate prove (r • goal) arity emit' (r • c)) := by
  cases goal with
  | subrel lesser greater => exact .noRule _
  | related rel left right =>
    refine (splitSide (.related rel left right) hr left c.left _).bind fun xs => ?_
    refine (splitSide (.related rel left right) hr right c.right _).bind fun ys => ?_
    rw [List.zip_map, Candidate.proof_smul]
    refine eliminateAll (.related rel left right) hr hprove (fun e => ?_) (xs.zip ys)
      { rel := c.rel, premises := [c.proof] }
    exact bridge (.related rel left right) hr hprove rel e fun e => hemit _

theorem tryBatches (hT : T.Untouched r) (goal : Goal) (hprove : prove.Equivariant r) (side : Side)
    (head : String) (arity : Nat) {emit emit' : Reduction → Search ρ}
    (hemit : ∀ d, Mirrors r g (emit d) (emit' (r • d))) (batches : List Batch)
    (best : Option Failure) :
    Mirrors r g (tryBatches T prove goal side head arity emit batches best)
      (Search.tryBatches T prove (r • goal) side (r.name head) arity emit' batches
        (best.map (r • ·))) := by
  induction batches generalizing best with
  | nil => exact (Mirrors.noCandidate goal).failBest best
  | cons batch batches ih =>
    refine (hT.probe side head batch).bind fun found => ?_
    exact .tryEach (fun c _ => useCandidate hT.proper hprove arity hemit c) ih best

theorem monotone (hT : T.Untouched r) (side : Side) : (Method.monotone side).Equivariant T r := by
  intro prove hprove ρ g name goal emit emit' hemit
  cases goal with
  | subrel lesser greater => exact .noRule _
  | related rel left right =>
    refine Mirrors.subst fun σ => .ite ?_ (.noRule (.related rel left right)) ?_
    · simp
    · rw [Side.pick_smul, Subst.walk_smul]
      cases σ.walk (side.pick left right) with
      | app head args =>
        simp only [Term.smul_app, List.length_map, hT.parameters]
        exact hT.tryBatches (.related rel left right) hprove side head args.length hemit _
          none
      | var i => exact .noCandidate (.related rel left right)
      | cases s arms => simpa using .noCandidate (.related rel left right)

end Theory.Untouched

end Monotonicity
