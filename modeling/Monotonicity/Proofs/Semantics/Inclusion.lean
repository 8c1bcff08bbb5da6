import Monotonicity.Proofs.Calculus.Replay
import Monotonicity.Proofs.Semantics.Interpretation

/-!
# Derived inclusions hold

A derivation of an inclusion between plain relations, without anything put off, uses the rules for
inclusions only. Each of them passes from its premises to its conclusion in every interpretation
that respects the registry (`Prescribes.includes`), so all ground instances of what is derived hold
(`Derives.includes`).
-/

namespace Monotonicity

universe u

variable {T : Theory} {σ : Subst} {w : List Pending} {n : Nat} {hyps : List Hypothesis}
  {goal : Goal} {p : Proof}

/-- The methods of the rules for inclusions, and that of putting a goal off. -/
def Method.ordering : List Method :=
  [.subrelRefl, .subrelExtremes, .subrelFact, .subrelStructural, .subrelTrans, .deferUnsolved]

theorem Theory.Library.mem_ordering (h : T.Library) {rule : Rule} (hrule : rule ∈ T.rules)
    {lesser greater : Term} (hfits : rule.pattern.fits σ (.subrel lesser greater) = true) :
    rule.method ∈ Method.ordering := by
  rcases h rule hrule with hstandard | ⟨r, rfl⟩
  · simp only [Rule.standard, List.mem_cons, List.not_mem_nil, or_false] at hstandard
    rcases hstandard with rfl | rfl | rfl | rfl | rfl | rfl | rfl | rfl | rfl | rfl | rfl | rfl |
      rfl | rfl | rfl | rfl | rfl | rfl <;> simp_all [Method.ordering, Pattern.fits]
  · cases hfits

theorem Owed.mem {goals : List Goal} {premises : List Premise} (h : Owed n goals premises)
    (hgoal : goal ∈ goals) : ∃ p, .derived n [] goal p ∈ premises := by
  induction h with
  | nil => cases hgoal
  | cons hp _ ih =>
    rcases List.mem_cons.1 hgoal with rfl | hgoal
    · obtain ⟨p, rfl⟩ := hp
      exact ⟨p, List.mem_cons_self⟩
    · obtain ⟨p, hp⟩ := ih hgoal
      exact ⟨p, List.mem_cons_of_mem _ hp⟩

/-- The inclusion that an argument of a combinator asks for is among the goals. -/
theorem mem_argumentGoals {arguments : List (Term × Term × Variance)} {a b : Term} {v : Variance}
    (h : (a, b, v) ∈ arguments) :
    (v = .covariant → .subrel a b ∈ argumentGoals arguments) ∧
      (v = .contravariant → .subrel b a ∈ argumentGoals arguments) := by
  fun_induction argumentGoals arguments with
  | case1 => cases h
  | case2 a' b' rest ih => rcases List.mem_cons.1 h with heq | h <;> simp_all
  | case3 a' b' rest ih => rcases List.mem_cons.1 h with heq | h <;> simp_all
  | case4 a' b' rest ih => rcases List.mem_cons.1 h with heq | h <;> simp_all

/-! ## Inclusion by the shape of relations -/

namespace Interpretation.Orders

variable {M : Interpretation.{u}} {r : Registry} {θ : Nat → Term} {t t' a b a' b' : Term}

theorem includes_arrow (hM : M.Orders r) (ht : (t.subst θ).ground = true)
    (ht' : (t'.subst θ).ground = true) (h : t.view = .arrow a b) (h' : t'.view = .arrow a' b')
    (hdom : M.Includes (a'.subst θ) (a.subst θ)) (hcod : M.Includes (b.subst θ) (b'.subst θ)) :
    M.Includes (t.subst θ) (t'.subst θ) := by
  intro f g hfg
  rw [hM.relation_arrow ht h] at hfg
  rw [hM.relation_arrow ht' h']
  exact fun x y hxy => hcod _ _ (hfg x y (hdom x y hxy))

theorem includes_flip (hM : M.Orders r) (ht : (t.subst θ).ground = true)
    (ht' : (t'.subst θ).ground = true) (h : t.view = .flip a) (h' : t'.view = .flip a')
    (hrel : M.Includes (a.subst θ) (a'.subst θ)) : M.Includes (t.subst θ) (t'.subst θ) := by
  intro x y hxy
  rw [hM.relation_flip ht h] at hxy
  rw [hM.relation_flip ht' h']
  exact hrel y x hxy

theorem includes_named (hM : M.Orders r) (hθ : Grounding θ) {head : String} {xs ys : List Term}
    {variances : List Variance} (h : t.view = .named head xs) (h' : t'.view = .named head ys)
    (hlen : xs.length = ys.length) (hv : r.variances.get? head = some variances)
    (hlen' : variances.length = xs.length)
    (hargs : ∀ a b v, (a, b, v) ∈ xs.zip (ys.zip variances) →
      M.Varies (a.subst θ) (b.subst θ) v) : M.Includes (t.subst θ) (t'.subst θ) := by
  intro x y hxy
  rw [hM.relation_named (hθ.subst t) h] at hxy
  rw [hM.relation_named (hθ.subst t') h']
  refine hM.variances head variances hv _ _ ?_ ?_ ?_ ?_ ?_ x y hxy
  · simpa using fun t _ => hθ.subst t
  · simpa using fun t _ => hθ.subst t
  · simpa using hlen
  · simpa using hlen'
  · intro a b v hmem
    rw [← List.map_id variances, List.zip_map, List.zip_map] at hmem
    obtain ⟨⟨a', b', v'⟩, harg, heq⟩ := List.mem_map.1 hmem
    cases heq
    exact hargs a' b' v' harg

end Interpretation.Orders

/-! ## Derivations -/

section Soundness

variable {M : Interpretation.{u}} {θ ξ : Nat → Term} {method : Method} {lesser greater : Term}
  {premises : List Premise}

/-- A ground instance of an inclusion that was renamed is one of the inclusion. -/
theorem Interpretation.Orders.includes_renamed (hM : M.Orders T.registry) (hθ : Grounding θ)
    {id : Nat} {f : Inclusion} (hf : T.registry.inclusions[id]? = some f) (offset : Nat) :
    M.Includes ((f.lesser.rename offset).subst θ) ((f.greater.rename offset).subst θ) := by
  rw [Term.rename_eq_subst, Term.rename_eq_subst, Term.subst_subst, Term.subst_subst]
  exact hM.inclusions f (Array.mem_of_getElem? hf) _ fun i => hθ (i + offset)

theorem Term.Plain.of_resolve {t : Term} (h : (σ.resolve t).Plain) (hσ : σ.Acyclic) :
    t.Plain := by
  rw [hσ.resolve_eq_subst] at h
  exact (built_subst.1 h).1

/-- The parts of a relation whose value is plain have plain values. -/
theorem Term.Plain.resolve_of_mem_parts {t u : Term} (h : (σ.resolve t).Plain) (hσ : σ.Acyclic)
    (hu : u ∈ t.view.parts) : (σ.resolve u).Plain := by
  rw [hσ.resolve_eq_subst] at h ⊢
  exact built_of_mem_parts h hu

/-- One step of a derivation of an inclusion goes from inclusions to an inclusion. It is said of the
goals as they were looked at, under a ground assignment that makes equal what has equal values. -/
theorem Prescribes.includes (hM : M.Orders T.registry) (hσ : σ.Acyclic) (hξ : Grounding ξ)
    (heq : ∀ t u : Term, σ.resolve t = σ.resolve u → t.subst ξ = u.subst ξ)
    (hplain : ∀ f ∈ T.registry.inclusions, ∀ offset, (σ.resolve (f.greater.rename offset)).Plain)
    (hmethod : method ∈ Method.ordering)
    (h : Prescribes T σ [] n hyps method (.subrel lesser greater) premises)
    (hl : (σ.resolve lesser).Plain) (hg : (σ.resolve greater).Plain)
    (hsub : ∀ since a b p, .derived since [] ((Goal.subrel a b).resolve σ) p ∈ premises →
      (σ.resolve a).Plain → (σ.resolve b).Plain → M.Includes (a.subst ξ) (b.subst ξ)) :
    M.Includes (lesser.subst ξ) (greater.subst ξ) := by
  have howed {since goals rest a b} (hrest : Owed since goals rest)
      (hpremises : ∀ q ∈ rest, q ∈ premises) (hmem : (Goal.subrel a b).resolve σ ∈ goals)
      (ha : (σ.resolve a).Plain) (hb : (σ.resolve b).Plain) :
      M.Includes (a.subst ξ) (b.subst ξ) := by
    obtain ⟨p, hp⟩ := hrest.mem hmem
    exact hsub since a b p (hpremises _ hp) ha hb
  have hlpart {a : Term} (ha : a ∈ lesser.view.parts) := hl.resolve_of_mem_parts hσ ha
  have hgpart {b : Term} (hb : b ∈ greater.view.parts) := hg.resolve_of_mem_parts hσ hb
  cases h with
  | top => simp [Method.ordering] at hmethod
  | subrelSame h =>
    exact fun x y => (hM.relation_congr Subst.acyclic_empty (Subst.solves_empty ξ) (hξ.subst _)
      (hl.of_resolve hσ).view_ne_stuck h).1
  | subrelUnified h => exact heq _ _ h ▸ .refl _
  | subrelExtremes h =>
    intro x y hxy
    rcases h with htop | hbottom
    · exact hM.relation_top (hξ.subst _) htop
    · exact (hM.relation_bottom (hξ.subst _) hbottom hxy).elim
  | subrelFact hf hlesser hgreater =>
    rw [heq _ _ hlesser, heq _ _ hgreater]
    exact hM.includes_renamed hξ hf _
  | subrelTrans hf hlesser hrest =>
    rw [heq _ _ hlesser]
    refine (hM.includes_renamed hξ hf _).trans (howed hrest ?_ (by simp) ?_ hg)
    · exact fun q => List.mem_cons_of_mem _
    · exact hplain _ (Array.mem_of_getElem? hf) _
  | subrelArrow h h' hrest =>
    refine hM.includes_arrow (hξ.subst _) (hξ.subst _) h h'
      (howed hrest (fun _ => id) (by simp) (hgpart ?_) (hlpart ?_))
      (howed hrest (fun _ => id) (by simp) (hlpart ?_) (hgpart ?_)) <;>
    simp [h, h', View.parts]
  | subrelFlip h h' hrest =>
    refine hM.includes_flip (hξ.subst _) (hξ.subst _) h h'
      (howed hrest (fun _ => id) (by simp) (hlpart ?_) (hgpart ?_)) <;>
    simp [h, h', View.parts]
  | subrelDependent h => exact (Term.Plain.view_ne_dependent (hl.of_resolve hσ) _ _ h).elim
  | subrelNamed h h' hlen hv hlen' hagree hrest =>
    refine hM.includes_named hξ h h' hlen hv hlen' fun a b v hmem => ?_
    obtain ⟨ha, hbv⟩ := List.of_mem_zip hmem
    have ha := hlpart (a := a) (by simpa [h, View.parts] using ha)
    have hb := hgpart (b := b) (by simpa [h', View.parts] using (List.of_mem_zip hbv).1)
    obtain ⟨hco, hcontra⟩ := mem_argumentGoals hmem
    cases v with
    | covariant => exact howed hrest (fun _ => id) (List.mem_map_of_mem (hco rfl)) ha hb
    | contravariant => exact howed hrest (fun _ => id) (List.mem_map_of_mem (hcontra rfl)) hb ha
    | invariant => exact heq a b (hagree a b hmem)
  | deferUnsolved _ hi => simp at hi

/-- All ground instances of a derived inclusion between plain relations hold. -/
theorem Derives.includes (hT : T.Library) (hM : M.Orders T.registry) (hσ : σ.Acyclic)
    (hθ : Grounding θ)
    (hplain : ∀ f ∈ T.registry.inclusions, ∀ offset, (σ.resolve (f.greater.rename offset)).Plain)
    (h : Derives T σ [] n hyps (.subrel lesser greater) p) (hl : lesser.Plain)
    (hg : greater.Plain) : M.Includes (lesser.subst θ) (greater.subst θ) := by
  generalize hgoal : Goal.subrel lesser greater = goal at h
  generalize hw : ([] : List Pending) = w at h
  induction h generalizing lesser greater with
  | @step σ w n m hyps goal rule premises hrule hfits _ hprescribes _ _ _ ih =>
    subst hw
    -- the values and then the ground assignment are one assignment
    have hξ (t : Term) : (σ.resolve t).subst θ = t.subst fun i => (σ.value i).subst θ := by
      rw [hσ.resolve_eq_subst, Term.subst_subst]
    cases goal with
    | related rel left right => cases hgoal
    | subrel a b =>
      cases hgoal
      rw [hξ, hξ]
      refine hprescribes.includes hM hσ (fun i => hθ.subst _) (fun t u h => ?_) hplain
        (hT.mem_ordering hrule hfits) hl hg fun since a b p hp ha hb => ?_
      · rw [← hξ, ← hξ, h]
      · rw [← hξ, ← hξ]
        exact ih since [] _ p hp hσ hplain ha hb rfl rfl

end Soundness

end Monotonicity
