import Mathlib.Data.List.Find
import Monotonicity.Proofs.Renaming.Search

/-!
# Rules under other names

A theory is untouched by a renaming if it holds nothing that the renaming changes: its facts and
inclusions mention only names that are kept, its tables say of a new name what they say of the old
one, and the relations that its schemes fix are left alone. The rules of such a theory do under
other names what they do under these.
-/

namespace Monotonicity

open Search

/-- The case pairs kept names and fixes only relations that are left alone. -/
def KeepsCase (r : Renaming) (pair : CasePair) : Prop :=
  r.name pair.left = pair.left ∧ r.name pair.right = pair.right ∧
    ∀ rel, FieldRel.fixed rel ∈ pair.fields → r • rel = rel

/-- The relations that the fields of a case fix are left alone. -/
theorem KeepsCase.fixed {r : Renaming} {pair : CasePair} (h : KeepsCase r pair) {xs ys : List Term}
    {f : FieldRel × Term × Term} (hf : f ∈ pair.fields.zip (xs.zip ys)) (rel : Term)
    (hrel : f.1 = .fixed rel) : r • rel = rel :=
  h.2.2 rel (hrel ▸ (List.of_mem_zip hf).1)

/-- The renaming changes nothing that the theory holds. -/
structure Theory.Untouched (T : Theory) (r : Renaming) : Prop where
  proper : r.Proper
  facts : ∀ f ∈ T.registry.facts, f.rel.KeepsNames r ∧ f.left.KeepsNames r ∧ f.right.KeepsNames r ∧
    f.witness.KeepsNames r
  inclusions : ∀ f ∈ T.registry.inclusions, f.lesser.KeepsNames r ∧ f.greater.KeepsNames r
  byShape : ∀ side head arity,
    T.registry.byShape side (r.name head) arity = T.registry.byShape side head arity
  byHead : ∀ side head, T.registry.byHead side (r.name head) = T.registry.byHead side head
  parameters : ∀ head, T.registry.parameters.get? (r.name head) = T.registry.parameters.get? head
  variances : ∀ head, T.registry.variances.get? (r.name head) = T.registry.variances.get? head
  schemes : ∀ head, T.registry.schemes.get? (r.name head) = T.registry.schemes.get? head
  cases : ∀ head scheme, T.registry.schemes.get? head = some scheme → ∀ pair ∈ scheme.cases,
    KeepsCase r pair
  patterns : ∀ rule ∈ T.rules, ∀ head, rule.pattern = .related (.named head) → r.name head = head

/-- The method does under other names what it does under these. -/
def Method.Equivariant (T : Theory) (r : Renaming) (method : Method) : Prop :=
  ∀ ⦃prove : Prover⦄, prove.Equivariant r → ∀ ⦃ρ : Type⦄ ⦃g : ρ → ρ⦄ ⦃name : String⦄ ⦃goal : Goal⦄
    ⦃emit emit' : Reduction → Search ρ⦄, (∀ d, Mirrors r g (emit d) (emit' (r • d))) →
      Mirrors r g (method.run T prove name goal emit) (method.run T prove name (r • goal) emit')

namespace Theory.Untouched

variable {T : Theory} {r : Renaming} {ρ : Type} {goal : Goal} {prove : Prover} {g : ρ → ρ}

/-- A method that asks for no proofs. -/
theorem of_reduction {method : Method} (reduce : Goal → Search Reduction)
    (hrun : ∀ {ρ : Type} (prove : Prover) name goal (emit : Reduction → Search ρ),
      method.run T prove name goal emit = reduce goal >>= emit)
    (h : ∀ goal, Mirrors r (r • ·) (reduce goal) (reduce (r • goal))) : method.Equivariant T r := by
  intro prove _ ρ g name goal emit emit' hemit
  rw [hrun, hrun]
  exact (h goal).bind hemit

/-! ## Introduction and last resorts -/

theorem top : Method.top.Equivariant T r :=
  of_reduction (fun _ => pure {}) (fun _ _ _ _ => rfl) fun _ => .pure rfl

theorem eqRefl (hT : T.Untouched r) : Method.eqRefl.Equivariant T r := by
  refine of_reduction Search.eqRefl (fun _ _ _ _ => rfl) fun goal => ?_
  cases goal with
  | subrel lesser greater => exact .noRule _
  | related rel left right =>
    refine Mirrors.subst fun σ => .ite ?_ (.pure rfl) (.noRule _)
    rw [Subst.resolve_smul, Subst.resolve_smul, Term.smul_inj hT.proper]

theorem flipIntro (hT : T.Untouched r) : Method.flipIntro.Equivariant T r := by
  refine of_reduction Search.flipIntro (fun _ _ _ _ => rfl) fun goal => ?_
  cases goal with
  | subrel lesser greater => exact .noRule _
  | related rel left right =>
    refine Mirrors.subst fun σ => ?_
    rw [Subst.view_smul hT.proper]
    cases σ.view rel with
    | flip inner => exact .pure rfl
    | _ => exact .noRule (.related rel left right)

theorem applied (goal : Goal) (left right x y : Term) :
    Mirrors r (fun sides => (r • sides.1, r • sides.2)) (applied goal left right x y)
      (Search.applied (r • goal) (r • left) (r • right) (r • x) (r • y)) := by
  refine Mirrors.subst fun σ => ?_
  have hx := Term.extend?_smul (r := r) (σ.walk left) [x]
  have hy := Term.extend?_smul (r := r) (σ.walk right) [y]
  simp only [List.map_cons, List.map_nil] at hx hy
  rw [Subst.walk_smul, Subst.walk_smul, hx, hy]
  cases (σ.walk left).extend? [x] with
  | none => exact .noRule goal
  | some fx =>
    cases (σ.walk right).extend? [y] with
    | none => exact .noRule goal
    | some gy => exact .pure rfl

theorem arrowIntro (hT : T.Untouched r) : Method.arrowIntro.Equivariant T r := by
  intro prove hprove ρ g name goal emit emit' hemit
  cases goal with
  | subrel lesser greater => exact .noRule _
  | related rel left right =>
    refine Mirrors.subst fun σ => ?_
    rw [Subst.view_smul hT.proper]
    cases σ.view rel with
    | arrow dom cod =>
      refine (Mirrors.freshConst (by decide)).bind fun x =>
        (Mirrors.freshConst (by decide)).bind fun y => ?_
      refine (applied (.related rel left right) left right x y).bind fun sides => ?_
      refine (Mirrors.freshConst (by decide)).bind fun h => ?_
      exact hprove.proveAssuming [⟨dom, x, y, h⟩] (.related cod sides.1 sides.2) fun p => hemit _
    | _ => exact .noRule (.related rel left right)

theorem dependentIntro (hT : T.Untouched r) : Method.dependentIntro.Equivariant T r := by
  intro prove hprove ρ g name goal emit emit' hemit
  cases goal with
  | subrel lesser greater => exact .noRule _
  | related rel left right =>
    refine Mirrors.subst fun σ => ?_
    rw [Subst.view_smul hT.proper]
    cases σ.view rel with
    | dependent edge family =>
      refine (Mirrors.freshConst (by decide)).bind fun v =>
        (Mirrors.freshConst (by decide)).bind fun w =>
          (Mirrors.freshConst (by decide)).bind fun e => ?_
      refine (applied (.related rel left right) left right v w).bind fun sides => ?_
      refine Mirrors.subst fun σ => .require (Subst.family?_smul hT.proper ..)
        (.noRule (.related rel left right)) fun inst _ => ?_
      exact hprove.proveAssuming [⟨edge, v, w, e⟩] (.related inst sides.1 sides.2) fun p => hemit _
    | _ => exact .noRule (.related rel left right)

theorem eqCongruence (hT : T.Untouched r) : Method.eqCongruence.Equivariant T r := by
  refine of_reduction Search.eqCongruence (fun _ _ _ _ => rfl) fun goal => ?_
  cases goal with
  | subrel lesser greater => exact .noRule _
  | related rel left right =>
    refine Mirrors.subst fun σ => ?_
    rw [Subst.walk_smul, Subst.walk_smul]
    cases σ.walk left with
    | app f xs =>
      cases σ.walk right with
      | app f' ys =>
        simp only [Term.smul_app]
        refine .ite (by simp [hT.proper.injective.eq_iff]) (.pure ?_)
          (.noRule (.related rel left right))
        simp [List.zip_map]
      | _ => simpa using .noRule (.related rel left right)
    | _ => simpa using .noRule (.related rel left right)

theorem eqUnify (hT : T.Untouched r) : Method.eqUnify.Equivariant T r := by
  refine of_reduction Search.eqUnify (fun _ _ _ _ => rfl) fun goal => ?_
  cases goal with
  | subrel lesser greater => exact .noRule _
  | related rel left right =>
    exact .ifUnify hT.proper _ _ (.pure rfl) (.noRule (.related rel left right))

theorem reflPlaceholder (hT : T.Untouched r) : Method.reflPlaceholder.Equivariant T r := by
  refine of_reduction Search.reflPlaceholder (fun _ _ _ _ => rfl) fun goal => ?_
  cases goal with
  | subrel lesser greater => exact .noRule _
  | related rel left right =>
    refine .ifUnify hT.proper _ _ ?_ (.noRule (.related rel left right))
    have h := Mirrors.ifUnify (r := r) (g := (r • ·)) hT.proper rel .equality
      (.pure (a := ({} : Reduction)) rfl) (.noRule (.related rel left right))
    rwa [Term.smul_equality hT.proper] at h

theorem deferUnsolved : Method.deferUnsolved.Equivariant T r := by
  refine of_reduction (Search.deferUnsolved T) (fun _ _ _ _ => rfl) fun goal => ?_
  exact .ite Iff.rfl ((Mirrors.defer goal).bind fun p => .pure rfl) (.noRule goal)

/-! ## Constructors and case analyses -/

/-- The relation of a field, of a relation under other names. -/
theorem relation?_smul {field : FieldRel} (hfixed : ∀ rel, field = .fixed rel → r • rel = rel)
    (whole : Term) (args : List Term) :
    field.relation? (r • whole) (args.map (r • ·)) = (field.relation? whole args).map (r • ·) := by
  cases field with
  | arg i => simp [FieldRel.relation?]
  | fixed rel => simp [FieldRel.relation?, hfixed rel rfl]
  | recursive => rfl

theorem zip_fields_map (fields : List FieldRel) (xs ys : List Term) :
    fields.zip ((xs.map (r • ·)).zip (ys.map (r • ·))) =
      (fields.zip (xs.zip ys)).map fun (field, x, y) => (field, r • x, r • y) := by
  rw [List.zip_map, List.zip_map_right]
  rfl

theorem fieldGoals (whole : Term) (args : List Term) {fields : List (FieldRel × Term × Term)}
    (hfixed : ∀ f ∈ fields, ∀ rel, f.1 = .fixed rel → r • rel = rel) :
    Mirrors r (·.map (r • ·)) (fieldGoals goal whole args fields)
      (Search.fieldGoals (r • goal) (r • whole) (args.map (r • ·))
        (fields.map fun (field, x, y) => (field, r • x, r • y))) := by
  induction fields with
  | nil => exact .pure rfl
  | cons f fields ih =>
    rw [List.forall_mem_cons] at hfixed
    refine .require (relation?_smul hfixed.1 whole args) (.noRule goal) fun rel _ => ?_
    exact (ih hfixed.2).bind fun goals => .pure rfl

/-- The case of two constructors is found under other names if it was found before. -/
theorem find?_case (hr : r.Proper) {pairs : List CasePair} (hpairs : ∀ p ∈ pairs, KeepsCase r p)
    (c c' : String) (n n' : Nat) :
    (pairs.find? fun p => p.left = r.name c ∧ p.right = r.name c' ∧ p.fields.length = n ∧ n = n') =
      pairs.find? fun p => p.left = c ∧ p.right = c' ∧ p.fields.length = n ∧ n = n' := by
  refine List.find?_congr fun p hp => ?_
  obtain ⟨hleft, hright, -⟩ := hpairs p hp
  have hl : p.left = r.name c ↔ p.left = c := by
    rw [← hr.injective.eq_iff (b := c), hleft]
  have hr : p.right = r.name c' ↔ p.right = c' := by
    rw [← hr.injective.eq_iff (b := c'), hright]
  simp only [hl, hr]

theorem relatorIntro (hT : T.Untouched r) : Method.relatorIntro.Equivariant T r := by
  refine of_reduction (Search.relatorIntro T) (fun _ _ _ _ => rfl) fun goal => ?_
  cases goal with
  | subrel lesser greater => exact .noRule _
  | related rel left right =>
    have hstuck := Mirrors.noRule (r := r) (f := fun d : Reduction => r • d)
      (.related rel left right)
    refine Mirrors.subst fun σ => ?_
    rw [Subst.view_smul hT.proper]
    cases σ.view rel with
    | named head args =>
      refine .require (f := id) (by simp [hT.schemes]) hstuck fun scheme hscheme => ?_
      have hcases := hT.cases head scheme hscheme
      rw [Subst.walk_smul, Subst.walk_smul, Subst.resolve_smul]
      cases σ.walk left with
      | app c xs =>
        cases σ.walk right with
        | app c' ys =>
          simp only [Term.smul_app]
          refine .require (f := id) ?_ hstuck fun pair hpair => ?_
          · simpa only [List.length_map, id, Option.map_id] using
              find?_case hT.proper hcases c c' xs.length ys.length
          · rw [zip_fields_map]
            have hpair := hcases pair (List.mem_of_find?_eq_some hpair)
            exact (fieldGoals (σ.resolve rel) args fun f => KeepsCase.fixed hpair).bind
              fun goals => .pure rfl
        | _ => simpa using hstuck
      | _ => simpa using hstuck
    | _ => exact hstuck

theorem casesReduce (hT : T.Untouched r) : Method.casesReduce.Equivariant T r := by
  refine of_reduction Search.casesReduce (fun _ _ _ _ => rfl) fun goal => ?_
  cases goal with
  | subrel lesser greater => exact .noRule _
  | related rel left right =>
    refine Mirrors.subst fun σ => ?_
    rw [Subst.taken?_smul hT.proper, Subst.taken?_smul hT.proper]
    cases taken? σ left with
    | none =>
      cases taken? σ right with
      | none => exact .noRule (.related rel left right)
      | some right' => exact .pure rfl
    | some left' => cases taken? σ right <;> exact .pure rfl

theorem fieldHypotheses (whole : Term) (args : List Term) (flipped : Bool)
    {fields : List (FieldRel × Term × Term)}
    (hfixed : ∀ f ∈ fields, ∀ rel, f.1 = .fixed rel → r • rel = rel) :
    Mirrors r (·.map (r • ·)) (fieldHypotheses goal whole args flipped fields)
      (Search.fieldHypotheses (r • goal) (r • whole) (args.map (r • ·)) flipped
        (fields.map fun (field, x, y) => (field, r • x, r • y))) := by
  induction fields with
  | nil => exact .pure rfl
  | cons f fields ih =>
    rw [List.forall_mem_cons] at hfixed
    refine .require (relation?_smul hfixed.1 whole args) (.noRule goal) fun rel _ => ?_
    refine (Mirrors.freshConst (by decide)).bind fun h => (ih hfixed.2).bind fun hyps => .pure ?_
    cases flipped <;> rfl

theorem schemeSplit (hr : r.Proper) (rel whole : Term) (args : List Term) (flipped : Bool)
    (arms arms' : List (Arm Term)) {pairs : List CasePair} (hpairs : ∀ p ∈ pairs, KeepsCase r p) :
    Mirrors r (·.map (r • ·)) (schemeSplit goal rel whole args flipped arms arms' pairs)
      (Search.schemeSplit (r • goal) (r • rel) (r • whole) (args.map (r • ·)) flipped
        (arms.map (r • ·)) (arms'.map (r • ·)) pairs) := by
  induction pairs with
  | nil => exact .pure rfl
  | cons pair pairs ih =>
    rw [List.forall_mem_cons] at hpairs
    -- the scheme's constructors are kept, so the same arms are found
    have harm (arms : List (Arm Term)) {c : String} (hc : r.name c = c) :
        armFor? (arms.map (r • ·)) c = (armFor? arms c).map (r • ·) := by
      rw [← armFor?_smul hr, hc]
    have hstuck := Mirrors.noRule (r := r) (f := fun cs : List Case => cs.map (r • ·)) goal
    rw [Search.schemeSplit, Search.schemeSplit,
      harm arms (c := if flipped then pair.right else pair.left) (by
        split
        · exact hpairs.1.2.1
        · exact hpairs.1.1),
      harm arms' (c := if flipped then pair.left else pair.right) (by
        split
        · exact hpairs.1.1
        · exact hpairs.1.2.1)]
    cases armFor? arms (if flipped then pair.right else pair.left) with
    | none => exact hstuck
    | some arm =>
      cases armFor? arms' (if flipped then pair.left else pair.right) with
      | none => exact hstuck
      | some arm' =>
        refine .ite Iff.rfl ?_ hstuck
        refine (Mirrors.freshConsts (by decide) _).bind fun xs =>
          (Mirrors.freshConsts (by decide) _).bind fun ys => ?_
        rw [zip_fields_map]
        refine (fieldHypotheses whole args flipped fun f => hpairs.1.fixed).bind fun hyps => ?_
        refine .require (applyArm?_smul arm.body xs) (.noRule goal) fun left _ => ?_
        refine .require (applyArm?_smul arm'.body ys) (.noRule goal) fun right _ => ?_
        exact (ih hpairs.2).bind fun cases => .pure rfl

theorem alignedSplit (hr : r.Proper) (rel : Term) (arms arms' : List (Arm Term)) :
    Mirrors r (·.map (r • ·)) (alignedSplit goal rel arms' arms)
      (Search.alignedSplit (r • goal) (r • rel) (arms'.map (r • ·)) (arms.map (r • ·))) := by
  induction arms with
  | nil => exact .pure rfl
  | cons arm arms ih =>
    have harm : (armFor? (arms'.map (r • ·)) (r • arm).ctor).filter (·.arity = (r • arm).arity) =
        ((armFor? arms' arm.ctor).filter (·.arity = arm.arity)).map (r • ·) := by
      rw [ctor_smul, armFor?_smul hr]
      cases armFor? arms' arm.ctor with
      | none => rfl
      | some arm' => by_cases h : arm'.arity = arm.arity <;> simp [Option.filter, h]
    refine .require harm (.noRule goal) fun arm' _ => ?_
    refine (Mirrors.freshConsts (by decide) _).bind fun xs => ?_
    refine .require (applyArm?_smul arm.body xs) (.noRule goal) fun left _ => ?_
    refine .require (applyArm?_smul arm'.body xs) (.noRule goal) fun right _ => ?_
    exact ih.bind fun cases => .pure rfl

theorem pairsSplit (rel : Term) (pairs : List (Arm Term × Arm Term)) :
    Mirrors r (·.map (r • ·)) (pairsSplit rel pairs)
      (Search.pairsSplit (r • rel) (pairs.map fun p => (r • p.1, r • p.2))) := by
  induction pairs with
  | nil => exact .pure rfl
  | cons pair pairs ih =>
    refine (Mirrors.freshConsts (by decide) _).bind fun xs =>
      (Mirrors.freshConsts (by decide) _).bind fun ys => ?_
    rw [body_smul, body_smul, applyArm?_smul, applyArm?_smul]
    cases applyArm? pair.1.body xs with
    | none => exact ih
    | some left =>
      cases applyArm? pair.2.body ys with
      | none => exact ih
      | some right => exact ih.bind fun cases => .pure rfl

theorem allPairs_map (arms arms' : List (Arm Term)) :
    allPairs (arms.map (r • ·)) (arms'.map (r • ·)) =
      (allPairs arms arms').map fun p => (r • p.1, r • p.2) := by
  simp [allPairs, List.flatMap_map, List.map_flatMap, Function.comp_def]

theorem split (hT : T.Untouched r) (goal : Goal) (rel scrutinees : Term)
    (arms arms' : List (Arm Term)) :
    Mirrors r (·.map (r • ·)) (Search.split T goal rel scrutinees arms arms')
      (Search.split T (r • goal) (r • rel) (r • scrutinees) (arms.map (r • ·))
        (arms'.map (r • ·))) := by
  have hpairs : Mirrors r (·.map (r • ·)) (Search.pairsSplit rel (allPairs arms arms'))
      (Search.pairsSplit (r • rel) (allPairs (arms.map (r • ·)) (arms'.map (r • ·)))) := by
    rw [allPairs_map]
    exact pairsSplit rel _
  refine Mirrors.subst fun σ => ?_
  simp only [Subst.view_smul hT.proper, Subst.resolve_smul]
  cases σ.view scrutinees with
  | equality => exact alignedSplit hT.proper rel arms arms'
  | named head args =>
    simp only [View.smul_named, hT.schemes]
    cases hscheme : T.registry.schemes.get? head with
    | none => exact hpairs
    | some scheme => exact schemeSplit hT.proper _ _ _ _ _ _ (hT.cases head scheme hscheme)
  | flip inner =>
    simp only [View.smul_flip, Subst.view_smul hT.proper, Subst.resolve_smul]
    cases σ.view inner with
    | named head args =>
      simp only [View.smul_named, hT.schemes]
      cases hscheme : T.registry.schemes.get? head with
      | none => exact hpairs
      | some scheme => exact schemeSplit hT.proper _ _ _ _ _ _ (hT.cases head scheme hscheme)
    | _ => exact hpairs
  | _ => exact hpairs

theorem proveCases (hprove : prove.Equivariant r) {emit emit' : Reduction → Search ρ}
    (hemit : ∀ d, Mirrors r g (emit d) (emit' (r • d))) (cases : List Case) (done : List Proof) :
    Mirrors r g (proveCases prove emit cases done)
      (Search.proveCases prove emit' (cases.map (r • ·)) (done.map (r • ·))) := by
  induction cases generalizing done with
  | nil => exact hemit _
  | cons c cases ih =>
    refine hprove.proveAssuming c.hyps c.goal fun p => ?_
    simpa using ih (done ++ [p])

theorem destruct (hT : T.Untouched r) : Method.destruct.Equivariant T r := by
  intro prove hprove ρ g name goal emit emit' hemit
  cases goal with
  | subrel lesser greater => exact .noRule _
  | related rel left right =>
    have hstuck := Mirrors.noRule (r := r) (f := g) (.related rel left right)
    refine Mirrors.subst fun σ => ?_
    rw [Subst.walk_smul, Subst.walk_smul]
    cases σ.walk left with
    | cases s arms =>
      cases σ.walk right with
      | cases s' arms' =>
        simp only [Term.smul_cases]
        refine Mirrors.freshVar.bind fun scrutinees => hprove fun p => ?_
        refine (hT.split (.related rel left right) rel scrutinees arms arms').bind
          fun cases => ?_
        exact proveCases hprove hemit cases [p]
      | _ => simpa using hstuck
    | _ => simpa using hstuck

/-! ## Inclusions -/

theorem subrelRefl (hT : T.Untouched r) : Method.subrelRefl.Equivariant T r := by
  refine of_reduction Search.subrelRefl (fun _ _ _ _ => rfl) fun goal => ?_
  cases goal with
  | related rel left right => exact .noRule _
  | subrel lesser greater =>
    refine Mirrors.subst fun σ => .ite ?_ (.pure rfl) ?_
    · rw [Subst.view_smul hT.proper, Subst.view_smul hT.proper, View.smul_inj hT.proper]
    · exact .ifUnify hT.proper _ _ (.pure rfl) (.noRule (.subrel lesser greater))

theorem subrelExtremes (hT : T.Untouched r) : Method.subrelExtremes.Equivariant T r := by
  refine of_reduction Search.subrelExtremes (fun _ _ _ _ => rfl) fun goal => ?_
  cases goal with
  | related rel left right => exact .noRule _
  | subrel lesser greater =>
    refine Mirrors.subst fun σ => .ite ?_ (.pure rfl) (.noRule (.subrel lesser greater))
    rw [Subst.view_smul hT.proper, Subst.view_smul hT.proper]
    cases σ.view greater <;> cases σ.view lesser <;> simp

theorem eachInclusion (hT : T.Untouched r) (goal : Goal)
    {run run' : Nat → Term → Term → Search ρ}
    (hrun : ∀ id l u, Mirrors r g (run id l u) (run' id (r • l) (r • u))) :
    Mirrors r g (eachInclusion T goal run) (Search.eachInclusion T (r • goal) run') := by
  unfold Search.eachInclusion
  nth_rewrite 2 [← List.map_id T.registry.inclusions.toList.zipIdx]
  refine Mirrors.tryEach ?_ (Mirrors.noRule goal).failBest none
  rintro ⟨f, number⟩ hf
  have hkeeps := hT.inclusions f (Array.mem_toList_iff.1 (List.fst_mem_of_mem_zipIdx hf))
  refine (Mirrors.reserve f.schematic).bind fun offset => ?_
  simp only [← Term.rename_smul hkeeps.1, ← Term.rename_smul hkeeps.2]
  exact hrun number _ _

theorem subrelFact (hT : T.Untouched r) : Method.subrelFact.Equivariant T r := by
  intro prove _ ρ g name goal emit emit' hemit
  cases goal with
  | related rel left right => exact .noRule _
  | subrel lesser greater =>
    have hstuck := Mirrors.noRule (r := r) (f := g) (.subrel lesser greater)
    simp only [Method.run, Search.subrelFact, Goal.smul_subrel]
    refine hT.eachInclusion (.subrel lesser greater) fun id l u => ?_
    exact .ifUnify hT.proper _ _ (.ifUnify hT.proper _ _ (hemit _) hstuck) hstuck

theorem subrelTrans (hT : T.Untouched r) : Method.subrelTrans.Equivariant T r := by
  intro prove _ ρ g name goal emit emit' hemit
  cases goal with
  | related rel left right => exact .noRule _
  | subrel lesser greater =>
    simp only [Method.run, Search.subrelTrans, Goal.smul_subrel]
    refine hT.eachInclusion (.subrel lesser greater) fun id l u => ?_
    exact .ifUnify hT.proper _ _ (hemit _) (.noRule (.subrel lesser greater))

theorem argumentInclusions (hr : r.Proper) (arguments : List (Term × Term × Variance)) :
    Mirrors r (·.map (r • ·)) (argumentInclusions goal arguments)
      (Search.argumentInclusions (r • goal)
        (arguments.map fun (a, b, v) => (r • a, r • b, v))) := by
  induction arguments with
  | nil => exact .pure rfl
  | cons argument arguments ih =>
    obtain ⟨a, b, v⟩ := argument
    cases v with
    | covariant => exact ih.bind fun goals => .pure rfl
    | contravariant => exact ih.bind fun goals => .pure rfl
    | invariant => exact .ifUnify hr a b ih (.noRule goal)

theorem subrelStructural (hT : T.Untouched r) : Method.subrelStructural.Equivariant T r := by
  refine of_reduction (Search.subrelStructural T) (fun _ _ _ _ => rfl) fun goal => ?_
  cases goal with
  | related rel left right => exact .noRule _
  | subrel lesser greater =>
    have hstuck := Mirrors.noRule (r := r) (f := fun d : Reduction => r • d)
      (.subrel lesser greater)
    refine Mirrors.subst fun σ => ?_
    simp only [Subst.view_smul hT.proper]
    cases σ.view lesser with
    | arrow a b =>
      cases σ.view greater with
      | arrow a' b' => exact .pure rfl
      | _ => exact hstuck
    | flip a =>
      cases σ.view greater with
      | flip b => exact .pure rfl
      | _ => exact hstuck
    | dependent e f =>
      cases σ.view greater with
      | dependent e' f' =>
        refine (Mirrors.freshConst (by decide)).bind fun v =>
          (Mirrors.freshConst (by decide)).bind fun w =>
            (Mirrors.freshConst (by decide)).bind fun x => ?_
        rw [Subst.family?_smul hT.proper, Subst.family?_smul hT.proper]
        cases σ.family? f v w x with
        | none => exact hstuck
        | some rel =>
          cases σ.family? f' v w x with
          | none => exact hstuck
          | some rel' => exact .pure rfl
      | _ => exact hstuck
    | named h xs =>
      cases σ.view greater with
      | named h' ys =>
        simp only [View.smul_named, hT.variances]
        refine .ite (by simp [hT.proper.injective.eq_iff]) ?_ hstuck
        refine .require (f := id) (by simp) hstuck fun variances _ => .ite (by simp) ?_ hstuck
        have harguments : (xs.map (r • ·)).zip ((ys.map (r • ·)).zip variances) =
            (xs.zip (ys.zip variances)).map fun (a, b, v) => (r • a, r • b, v) := by
          simp only [List.zip_map_left, List.zip_map_right, List.map_map]
          rfl
        rw [id, harguments]
        exact (argumentInclusions hT.proper _).bind fun goals => .pure rfl
      | _ => exact hstuck
    | _ => exact hstuck

end Theory.Untouched

end Monotonicity
