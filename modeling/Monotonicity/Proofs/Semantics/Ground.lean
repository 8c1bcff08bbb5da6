import Monotonicity.Proofs.Semantics.Elimination
import Monotonicity.Proofs.Semantics.Inclusion

/-!
# What an engine solves holds

For an engine with the standard rules only, the goals that it solves hold in every interpretation in
which what is registered holds, as long as everything is stated in simple terms: ground ones without
case analyses, dependent arrows and marked names.

A derivation is followed from its premises to its conclusion. What is shown of a goal is that it is
entailed by the hypotheses: it holds under every valuation that differs from the interpretation's
own on marked names only and makes the hypotheses true. So a premise with new constants speaks of
all elements (`entails_arrow`), since the constants occur nowhere else. Each rule has its lemma, and
`Derives.entails` is the induction.
-/

namespace Monotonicity

universe u

/-- A ground term without case analyses, dependent arrows and marked names. -/
structure Term.Simple (t : Term) : Prop where
  ground : t.ground = true
  heads : t.Built fun head n => PlainHead head n ∧ Symbols.isMarked head = false

theorem Term.Simple.plainGround {t : Term} (h : t.Simple) : t.PlainGround where
  ground := h.ground
  plain := h.heads.mono fun _ _ hhead => hhead.1

theorem Term.Simple.settled {t : Term} (h : t.Simple) (n : Nat) : t.Settled n where
  ground := h.ground
  known := h.heads.mono fun _ _ hhead => Symbols.known_of_unmarked hhead.2

theorem Term.simple_iff {t : Term} :
    t.Simple ↔ t.vars = [] ∧
      t.Built fun head n => PlainHead head n ∧ Symbols.isMarked head = false := by
  rw [← ground_iff]
  exact ⟨fun h => ⟨h.ground, h.heads⟩, fun h => ⟨h.1, h.2⟩⟩

instance (t : Term) : Decidable t.Simple := decidable_of_iff _ Term.simple_iff.symm

/-- What is registered is stated in simple terms. -/
structure Registry.Simple (r : Registry) : Prop where
  facts : ∀ f ∈ r.facts, f.rel.Simple ∧ f.left.Simple ∧ f.right.Simple
  inclusions : ∀ f ∈ r.inclusions, f.lesser.Simple ∧ f.greater.Simple

/-- The value of a ground term that was renamed is the term. -/
theorem Subst.Acyclic.resolve_rename {σ : Subst} (hσ : σ.Acyclic) {t : Term}
    (ht : t.ground = true) (offset : Nat) : σ.resolve (t.rename offset) = t := by
  rw [hσ.resolve_eq_subst, Term.rename_eq_subst, Term.subst_of_ground _ t ht,
    Term.subst_of_ground _ t ht]

/-- The parts of a relation whose value is plain and ground have such values. -/
theorem Term.PlainGround.resolve_of_mem_parts {σ : Subst} {t u : Term}
    (h : (σ.resolve t).PlainGround) (hσ : σ.Acyclic) (hu : u ∈ t.view.parts) :
    (σ.resolve u).PlainGround := by
  have hground := h.ground
  rw [hσ.resolve_eq_subst] at hground
  refine ⟨?_, h.plain.resolve_of_mem_parts hσ hu⟩
  rw [hσ.resolve_eq_subst]
  exact ground_of_mem_parts hground hu

theorem Subst.Acyclic.resolve_minting {σ : Subst} (hσ : σ.Acyclic) (hint : String) (n : Nat) :
    σ.resolve (.minting hint n) = .minting hint n :=
  hσ.resolve_app _ _

/-- A term that is applied to a new constant is settled behind the constant's number, and stands for
what it stands for, applied to what the constant stands for. -/
theorem settled_applied (M : Interpretation.{u}) {σ : Subst} (hσ : σ.Acyclic) {hint : String}
    {k n m : Nat} {t u : Term} (h : t.extend? [.minting hint k] = some u)
    (ht : (σ.resolve t).Settled n) (hk : k + 1 ≤ m) (hn : n ≤ m) :
    (σ.resolve u).Settled m ∧ ∀ v, M.value v (σ.resolve u) =
      M.apply (M.value v (σ.resolve t)) (M.value v (.minting hint k)) := by
  have hresolve : (σ.resolve t).extend? [.minting hint k] = some (σ.resolve u) := by
    simpa only [← hσ.resolve_eq_subst, List.map_cons, List.map_nil, hσ.resolve_minting] using
      Term.extend?_subst (f := σ.value) h
  refine ⟨(Term.settled_of_extend? hresolve).2 ⟨ht.of_le hn, ?_⟩, fun v => ?_⟩
  · simpa using Term.settled_minting hint hk
  · simp [Interpretation.value_of_extend? hresolve]

variable {M : Interpretation.{u}} {T : Theory} {σ : Subst} {n m : Nat} {hyps : List Hypothesis}
  {goal : Goal} {rel left right : Term} {p : Proof} {premises : List Premise}

/-- The goal holds under every valuation under which the hypotheses do. -/
def Interpretation.Entails (M : Interpretation.{u}) (n : Nat) (hyps : List Hypothesis)
    (goal : Goal) : Prop :=
  goal.Settled n → (∀ h ∈ hyps, h.Settled n) → ∀ v, M.Extends v → M.Assumes v hyps → M.Holds v goal

theorem Interpretation.Entails.of_le (h : M.Entails m hyps goal) (hm : n ≤ m) :
    M.Entails n hyps goal :=
  fun hgoal hhyps => h (hgoal.of_le hm) fun q hq => (hhyps q hq).of_le hm

/-- All premises of a step are entailed. -/
def Interpretation.EntailsAll (M : Interpretation.{u}) (hyps : List Hypothesis)
    (premises : List Premise) : Prop :=
  ∀ since further g p, .derived since further g p ∈ premises → M.Entails since (hyps ++ further) g

theorem Interpretation.EntailsAll.owed (h : M.EntailsAll hyps premises) {since : Nat}
    {goals : List Goal} {rest : List Premise} (hrest : Owed since goals rest)
    (hpremises : ∀ q ∈ rest, q ∈ premises) : ∀ g ∈ goals, M.Entails since hyps g := by
  intro g hg
  obtain ⟨p, hp⟩ := hrest.mem hg
  simpa using h since [] g p (hpremises _ hp)

/-! ## The rules -/

section Rules

variable (hM : M.Models T.registry) (hσ : σ.Acyclic)

include hM hσ

theorem entails_top (h : rel.view = .top) :
    M.Entails n hyps ((Goal.related rel left right).resolve σ) := by
  rintro ⟨hrel, -, -⟩ - v - -
  have hground := hrel.ground
  simp only [Goal.resolve, Goal.map, Interpretation.Holds, hσ.resolve_eq_subst] at hground ⊢
  exact hM.relation_top hground h

/-- A relation that is seen to be equality relates equal elements only. -/
theorem relation_equality_resolve (hrel : (σ.resolve rel).PlainGround) (h : rel.view = .equality)
    {x y : M.Carrier} : M.relation (σ.resolve rel) x y ↔ x = y := by
  have hground := hrel.ground
  rw [hσ.resolve_eq_subst] at hground ⊢
  exact hM.relation_equality hground h

theorem entails_equality (h : rel.view = .equality) (heq : σ.resolve left = σ.resolve right) :
    M.Entails n hyps ((Goal.related rel left right).resolve σ) := by
  rintro ⟨hrel, -, -⟩ - v - -
  exact (relation_equality_resolve hM hσ hrel h).2 (congrArg (M.value v) heq)

/-- Applications of one head to equal arguments are equal. -/
theorem entails_congruence {head : String} {xs ys : List Term} (h : rel.view = .equality)
    (hlen : xs.length = ys.length)
    (hargs : ∀ x y, (x, y) ∈ xs.zip ys → M.Entails n hyps ((Goal.related rel x y).resolve σ)) :
    M.Entails n hyps ((Goal.related rel (.app head xs) (.app head ys)).resolve σ) := by
  rintro ⟨hrel, hleft, hright⟩ hhyps v hv ha
  refine (relation_equality_resolve hM hσ hrel h).2 ?_
  rw [hσ.resolve_app, Term.settled_app] at hleft hright
  have hequal : List.Forall₂ (fun x y => M.value v (σ.resolve x) = M.value v (σ.resolve y)) xs
      ys := by
    refine List.forall₂_iff_zip.2 ⟨hlen, fun {x y} hxy => ?_⟩
    obtain ⟨hx, hy⟩ := List.of_mem_zip hxy
    have hsettled : ((Goal.related rel x y).resolve σ).Settled n :=
      .related hrel (hleft.2 _ (List.mem_map_of_mem hx)) (hright.2 _ (List.mem_map_of_mem hy))
    exact (relation_equality_resolve hM hσ hrel h).1 (hargs x y hxy hsettled hhyps v hv ha)
  rw [hσ.resolve_app, hσ.resolve_app, Interpretation.value_app, Interpretation.value_app]
  exact Interpretation.applyAll_congr
    (List.forall₂_map_left_iff.2 (List.forall₂_map_right_iff.2 hequal))

theorem entails_flip {inner : Term} (h : rel.view = .flip inner)
    (hinner : M.Entails n hyps ((Goal.related inner right left).resolve σ)) :
    M.Entails n hyps ((Goal.related rel left right).resolve σ) := by
  rintro ⟨hrel, hleft, hright⟩ hhyps v hv ha
  have hplain : (σ.resolve inner).PlainGround :=
    hrel.resolve_of_mem_parts hσ (by simp [h, View.parts])
  have hswapped : M.relation (σ.resolve inner) (M.value v (σ.resolve right))
      (M.value v (σ.resolve left)) :=
    hinner (.related hplain hright hleft) hhyps v hv ha
  have hground := hrel.ground
  simp only [Goal.resolve, Goal.map, Interpretation.Holds, hσ.resolve_eq_subst rel,
    hσ.resolve_eq_subst inner] at hground hswapped ⊢
  exact (hM.relation_flip hground h).2 hswapped

/-- What is shown of two new constants is shown of all elements that the domain relates. -/
theorem entails_arrow {dom cod fx gy : Term} (h : rel.view = .arrow dom cod)
    (hfx : left.extend? [.minting "x" n] = some fx)
    (hgy : right.extend? [.minting "y" (n + 1)] = some gy)
    (hbody : M.Entails (n + 3)
      (hyps ++ [(Hypothesis.mk dom (.minting "x" n) (.minting "y" (n + 1))
        (.minting "h" (n + 2))).resolve σ])
      ((Goal.related cod fx gy).resolve σ)) :
    M.Entails n hyps ((Goal.related rel left right).resolve σ) := by
  rintro ⟨hrel, hleft, hright⟩ hhyps v hv ha
  have hdom := hrel.resolve_of_mem_parts hσ (u := dom) (by simp [h, View.parts])
  have hcod := hrel.resolve_of_mem_parts hσ (u := cod) (by simp [h, View.parts])
  obtain ⟨hfx, hfxv⟩ := settled_applied M hσ hfx hleft (show n + 1 ≤ n + 3 by omega) (by omega)
  obtain ⟨hgy, hgyv⟩ := settled_applied M hσ hgy hright (show n + 2 ≤ n + 3 by omega) (by omega)
  have hnew : ((Hypothesis.mk dom (.minting "x" n) (.minting "y" (n + 1))
      (.minting "h" (n + 2))).resolve σ).Settled (n + 3) := by
    refine ⟨hdom, ?_, ?_⟩
    · simpa only [Hypothesis.resolve, hσ.resolve_minting] using Term.settled_minting "x" (by omega)
    · simpa only [Hypothesis.resolve, hσ.resolve_minting] using Term.settled_minting "y" (by omega)
  have hground := hrel.ground
  rw [hσ.resolve_eq_subst] at hground
  have harrow := hM.relation_arrow hground h (x := M.value v (σ.resolve left))
    (y := M.value v (σ.resolve right))
  simp only [← hσ.resolve_eq_subst] at harrow
  refine harrow.2 fun a b hab => ?_
  -- the new constants are made to stand for `a` and `b`, and nothing that was there changes
  obtain ⟨v', hagree, rfl, rfl⟩ := M.exists_agree n v a b
  rw [hagree.value_eq hleft, hagree.value_eq hright, ← hfxv, ← hgyv]
  refine hbody (.related hcod hfx hgy) ?_ v' (hagree.extends hv) ?_
  · refine List.forall_mem_append.2 ⟨fun q hq => (hhyps q hq).of_le (by omega), ?_⟩
    exact List.forall_mem_singleton.2 hnew
  · refine List.forall_mem_append.2 ⟨hagree.assumes hhyps ha, List.forall_mem_singleton.2 ?_⟩
    simpa only [Hypothesis.resolve, hσ.resolve_minting] using hab

/-- What a candidate relates is related. -/
theorem Proposes.related (hreg : T.registry.Simple) {side : Side} {head : String} {leaf : Proof}
    {consumed : Nat} (h : Proposes T σ hyps side head leaf rel left right consumed)
    (hhyps : ∀ h ∈ hyps, h.Settled n) {v : String → M.Carrier} (hv : M.Extends v)
    (ha : M.Assumes v hyps) :
    rel.PlainGround ∧ left.Settled n ∧ right.Settled n ∧
      M.relation rel (M.value v left) (M.value v right) := by
  cases h with
  | @fact id offset f args fact hfact hside =>
    have hmem := Array.mem_of_getElem? hfact
    obtain ⟨hrel, hleft, hright⟩ := hreg.facts fact hmem
    have hvalue {t : Term} (ht : t.Simple) : M.value v t = M.value M.symbol t :=
      Interpretation.value_congr ht.heads fun name _ hname => hv name hname.2
    simp only [Fact.rename, hσ.resolve_rename hrel.ground, hσ.resolve_rename hleft.ground,
      hσ.resolve_rename hright.ground, hvalue hleft, hvalue hright]
    exact ⟨hrel.plainGround, hleft.settled n, hright.settled n, hM.facts fact hmem⟩
  | @hypothesis i args h hh hside =>
    have hmem := List.mem_of_getElem? hh
    exact ⟨(hhyps h hmem).rel, (hhyps h hmem).left, (hhyps h hmem).right, ha h hmem⟩

/-- A relation that was reached is included in the one wanted. -/
theorem Bridges.includes {wanted : Term} {bridge : List Premise}
    (h : Bridges σ n rel wanted bridge) (hrel : rel.PlainGround) (hwanted : wanted.PlainGround)
    (hbridge : M.EntailsAll hyps bridge) (hhyps : ∀ h ∈ hyps, h.Settled n)
    {v : String → M.Carrier} (hv : M.Extends v) (ha : M.Assumes v hyps) :
    M.Includes rel wanted := by
  cases h with
  | @same υ r w hυ hr hw h =>
    subst hr hw
    rw [hσ.resolve_eq_subst] at hrel
    have hθ : υ.Solves σ.value := hσ.solves_value.of_le hσ.nodup hυ
    have hseen := hθ.view_ne_stuck (hσ.of_le hυ) hrel.plain
    rw [hσ.resolve_eq_subst, hσ.resolve_eq_subst]
    exact fun x y => (hM.relation_congr (hσ.of_le hυ) hθ hrel.ground hseen h).1
  | @crossed υ r w p hυ hr hw h =>
    have hentails := hbridge n [] _ p List.mem_cons_self
    rw [List.append_nil] at hentails
    exact hentails (.subrel hrel hwanted) hhyps v hv ha

/-- A candidate with its remaining arguments eliminated, and the relation reached bridged to the one
wanted. -/
theorem entails_monotone (hreg : T.registry.Simple) {side : Side} {head : String} {leaf : Proof}
    {crel cleft cright rel' : Term} {consumed : Nat} {xs ys : List Term}
    {edges bridge rest : List Premise} {owed : List Goal}
    (hc : Proposes T σ hyps side head leaf crel cleft cright consumed)
    (hlen : xs.length = ys.length) (hleft : applyArm? cleft xs = some (σ.resolve left))
    (hright : applyArm? cright ys = some (σ.resolve right))
    (helim : Eliminates σ n crel (xs.zip ys) m rel' edges owed)
    (hbridge : Bridges σ m rel' (σ.resolve rel) bridge) (hrest : Owed m owed rest)
    (hpremises : M.EntailsAll hyps (.leaf leaf :: edges ++ bridge ++ rest)) :
    M.Entails n hyps ((Goal.related rel left right).resolve σ) := by
  rintro ⟨hrel, hl, hr⟩ hhyps v hv ha
  obtain ⟨hcrel, -, -, hrelated⟩ := Proposes.related hM hσ hreg hc hhyps hv ha
  have hxs := ((Term.settled_of_applyArm? hleft).1 hl).2
  have hys := ((Term.settled_of_applyArm? hright).1 hr).2
  obtain ⟨hm, rfl, htransfers⟩ := helim.transfers hM hcrel fun a b hab =>
    ⟨hxs a (List.of_mem_zip hab).1, hys b (List.of_mem_zip hab).2⟩
  have hhyps' : ∀ q ∈ hyps, q.Settled m := fun q hq => (hhyps q hq).of_le hm
  have howed : ∀ g ∈ owed, M.Holds v g := fun g hg =>
    hpremises.owed hrest (by simp +contextual) g hg ((htransfers.settled g hg).of_le hm) hhyps' v hv
      ha
  have hreached := htransfers.related v _ _ howed hrelated
  rw [List.map_fst_zip hlen.le, List.map_snd_zip hlen.ge, ← Interpretation.value_of_applyArm? hleft,
    ← Interpretation.value_of_applyArm? hright] at hreached
  refine Bridges.includes hM hσ hbridge htransfers.reached hrel ?_ hhyps' hv ha _ _ hreached
  exact fun since further g p hp => hpremises since further g p (by simp [hp])

end Rules

/-! ## Derivations -/

/-- A case analysis is no settled term, whatever is filled in. -/
theorem not_settled_resolve_cases (hσ : σ.Acyclic) {s : Term} {arms : List (Arm Term)} :
    ¬ (σ.resolve (.cases s arms)).Settled n := by
  rw [hσ.resolve_eq_subst, Term.subst_cases]
  exact Term.Settled.not_cases

/-- Only case analyses can be reduced. -/
theorem exists_cases_of_taken? {t : Term} (h : Search.taken? .empty t ≠ none) :
    ∃ s arms, t = .cases s arms := by
  unfold Search.taken? at h
  rw [(Subst.empty_leaves t).walk_eq] at h
  cases t with
  | cases s arms => exact ⟨s, arms, rfl⟩
  | var i => exact (h rfl).elim
  | app head args => exact (h rfl).elim

/-- One step of a derivation goes from what its premises entail to what its conclusion does. -/
theorem Prescribes.entails (hM : M.Models T.registry) (hreg : T.registry.Simple) (hσ : σ.Acyclic)
    {rule : Rule} (hrule : rule ∈ Rule.standard)
    (hfits : rule.pattern.fits .empty (.related rel left right) = true)
    (h : Prescribes T σ [] n hyps rule.method (.related rel left right) premises)
    (hpremises : M.EntailsAll hyps premises) :
    M.Entails n hyps ((Goal.related rel left right).resolve σ) := by
  have hequality
      (hshape : (Pattern.related .equality).fits .empty (.related rel left right) = true) :
      rel.view = .equality := by
    cases hview : rel.view <;> simp_all [Pattern.fits, Term.view, View.shape]
  simp only [Rule.standard, List.mem_cons, List.not_mem_nil, or_false] at hrule
  rcases hrule with rfl | rfl | rfl | rfl | rfl | rfl | rfl | rfl | rfl | rfl | rfl | rfl | rfl |
    rfl | rfl | rfl | rfl | rfl
  · refine entails_top hM hσ ?_
    cases hview : rel.view <;> simp_all [Pattern.fits, Term.view, View.shape]
  · cases h with
    | eqRefl => exact entails_equality hM hσ (hequality hfits) rfl
  · cases h with
    | flipIntro h hrest =>
      exact entails_flip hM hσ h (hpremises.owed hrest (fun _ => id) _ List.mem_cons_self)
  · cases h with
    | arrowIntro h hleft hright =>
      exact entails_arrow hM hσ h hleft hright (hpremises _ _ _ _ List.mem_cons_self)
  · cases h with
    | dependentIntro h =>
      rintro ⟨hrel, -, -⟩
      exact (Term.Plain.view_ne_dependent (hrel.plain.of_resolve hσ) _ _ h).elim
  · cases h with
    | casesReduce h =>
      rintro ⟨-, hleft, hright⟩
      rcases h with h | h
      · obtain ⟨s, arms, rfl⟩ := exists_cases_of_taken? h
        exact (not_settled_resolve_cases hσ hleft).elim
      · obtain ⟨s, arms, rfl⟩ := exists_cases_of_taken? h
        exact (not_settled_resolve_cases hσ hright).elim
  -- the rules for inclusions are not for this goal
  iterate 5 cases hfits
  · cases h with
    | destruct =>
      rintro ⟨-, hleft, -⟩
      exact (not_settled_resolve_cases hσ hleft).elim
  iterate 2
    · cases h with
      | monotone _ _ hc _ hxs hys hleft hright helim hbridge hrest =>
        exact entails_monotone hM hσ hreg hc (hxs.trans hys.symm) hleft hright helim hbridge hrest
          hpremises
  · cases h with
    | eqCongruence hlen _ hrest =>
      refine entails_congruence hM hσ (hequality hfits) hlen fun x y hxy => ?_
      exact hpremises.owed hrest (fun _ => id) _ (List.mem_map_of_mem hxy)
  · cases h with
    | eqUnify h => exact entails_equality hM hσ (hequality hfits) h
  · cases h with
    | reflPlaceholder h hrel =>
      rintro - - v - -
      simp only [Goal.resolve, Goal.map, Interpretation.Holds, hrel, h]
      exact (hM.equality _ _).2 rfl
  · cases h with
    | deferUnsolved _ hi => simp at hi

/-- Whatever is derived from hypotheses, without anything put off, is entailed by them. -/
theorem Derives.entails (hT : ∀ rule ∈ T.rules, rule ∈ Rule.standard) (hM : M.Models T.registry)
    (hreg : T.registry.Simple) (hσ : σ.Acyclic) (h : Derives T σ [] n hyps goal p) :
    M.Entails n hyps goal := by
  generalize hw : ([] : List Pending) = w at h
  induction h with
  | @step σ w n m hyps goal rule premises hrule hfits hm hprescribes hderived hnow hearly ih =>
    subst hw
    cases goal with
    | related rel left right =>
      refine Interpretation.Entails.of_le ?_ hm
      exact hprescribes.entails hM hreg hσ (hT rule hrule) hfits fun since further g p hp =>
        ih since further g p hp hσ rfl
    | subrel lesser greater =>
      intro hsettled _ v _ _
      have hall : Derives T σ [] n hyps ((Goal.subrel lesser greater).resolve σ) _ :=
        .step hrule hfits hm hprescribes hderived hnow hearly
      have hθ : Grounding fun _ => Term.equality := fun _ => by simp [Term.equality]
      have hplain : ∀ f ∈ T.registry.inclusions, ∀ offset,
          (σ.resolve (f.greater.rename offset)).Plain := by
        intro f hf offset
        have hgreater := (hreg.inclusions f hf).2
        rw [hσ.resolve_rename hgreater.ground]
        exact hgreater.plainGround.plain
      cases hsettled with
      | subrel hl hg =>
        have hincludes := hall.includes (fun rule hrule => .inl (hT rule hrule)) hM.toOrders hσ hθ
          hplain hl.plain hg.plain
        rwa [Term.subst_of_ground _ _ hl.ground, Term.subst_of_ground _ _ hg.ground] at hincludes

/-! ## Solutions -/

theorem Goal.settled_of_simple (h : ∀ t ∈ goal.terms, t.Simple) (n : Nat) : goal.Settled n := by
  cases goal with
  | related rel left right =>
    exact .related (h rel (by simp [terms])).plainGround ((h left (by simp [terms])).settled n)
      ((h right (by simp [terms])).settled n)
  | subrel lesser greater =>
    exact .subrel (h lesser (by simp [terms])).plainGround (h greater (by simp [terms])).plainGround

theorem Goal.resolve_of_simple (h : ∀ t ∈ goal.terms, t.Simple) (hσ : σ.Acyclic) :
    goal.resolve σ = goal := by
  have hresolve {t : Term} (ht : t ∈ goal.terms) : σ.resolve t = t := by
    rw [hσ.resolve_eq_subst, Term.subst_of_ground _ t (h t ht).ground]
  cases goal <;> simp_all [terms, resolve, map]

/-- If `solve` proves a goal, in an engine with the standard rules only, then the goal holds in
every interpretation that respects the reserved relations, equality, the declared variances and the
registered inclusions and facts. All terms are to be ground, without case analyses, dependent arrows
and marked names. -/
theorem Engine.solved_goal_holds {E : Engine} {sol : Solution}
    (hE : ∀ rule ∈ E.theory.rules, rule ∈ Rule.standard) (hreg : E.theory.registry.Simple)
    (hgoal : ∀ t ∈ goal.terms, t.Simple) (h : (E.solve goal).1.result = .ok sol)
    (hsolved : sol.isSolved = true) (hM : M.Models E.theory.registry) : M.Holds M.symbol goal := by
  obtain ⟨bound, p, final, -, -, hσ, hderives⟩ :=
    derives_of_solved (fun rule hrule => .inl (hE rule hrule)) h hsolved
  rw [Goal.resolve_of_simple hgoal hσ] at hderives
  exact hderives.entails hE hM hreg hσ (Goal.settled_of_simple hgoal _) (by simp) M.symbol
    (fun _ _ => rfl) (by simp [Interpretation.Assumes])

/-- An engine that was told that `f` is monotone, and that `lt` is included in `le`. -/
def Engine.withOrder : Engine :=
  { Engine.new {} with
    theory := { Theory.standard {} with
      registry :=
        { facts := #[⟨.arrow (.const "le") (.const "le"), .const "f", .const "f",
            .const "f_mono", .self, 0⟩]
          selves := Index.file {} 0 (.const "f") (.const "f")
          inclusions := #[⟨.const "lt", .const "le", .const "lt_le", 0⟩] } } }

theorem Engine.numbers_models_withOrder :
    Interpretation.numbers.Models withOrder.theory.registry where
  toOrders := by
    apply Interpretation.numbers_orders
    · intro head variances hv
      simp [withOrder, Table.get?, Table.find] at hv
    · intro f hf θ x y hxy
      obtain rfl : f = ⟨.const "lt", .const "le", .const "lt_le", 0⟩ := by
        simpa [withOrder] using hf
      simp [Interpretation.numbers, Interpretation.numberRelation, Reserved.top, Reserved.bottom,
        Reserved.equality] at hxy ⊢
      exact Nat.le_of_lt hxy
  equality x y := by
    simp [Interpretation.numbers, Interpretation.numberRelation, Term.equality, Reserved.equality,
      Reserved.top, Reserved.bottom]
  facts f hf := by
    obtain rfl : f = ⟨.arrow (.const "le") (.const "le"), .const "f", .const "f",
        .const "f_mono", .self, 0⟩ := by
      simpa [withOrder] using hf
    simp [Interpretation.numbers, Interpretation.numberRelation, Term.arrow, Reserved.top,
      Reserved.bottom, Reserved.equality, Reserved.arrow]

/-- That `f` takes lesser numbers to numbers that are not greater is found and true. -/
theorem Engine.withOrder_goal_holds :
    ∃ sol, (withOrder.solve (.related (.arrow (.const "lt") (.const "le")) (.const "f")
        (.const "f"))).1.result = .ok sol ∧ sol.isSolved = true ∧
      Interpretation.numbers.Holds Interpretation.numbers.symbol
        (.related (.arrow (.const "lt") (.const "le")) (.const "f") (.const "f")) := by
  have hsolved : (match (withOrder.solve (.related (.arrow (.const "lt") (.const "le"))
      (.const "f") (.const "f"))).1.result with
    | .ok sol => sol.isSolved
    | .error _ => false) = true := by
    decide +kernel
  split at hsolved
  · next sol hsol =>
    refine ⟨sol, hsol, hsolved, solved_goal_holds ?_ ?_ ?_ hsol hsolved numbers_models_withOrder⟩
    · intro rule hrule
      simpa using mem_insertAll.1 hrule
    · exact ⟨by decide +kernel, by decide +kernel⟩
    · decide +kernel
  · cases hsolved

end Monotonicity
