import Monotonicity.Proofs.Calculus.Offer

/-!
# Case analysis emits what the calculus prescribes

A split makes its cases from the arms, the bindings and the number of symbols minted so far, and
changes nothing but that number. The cases are then proved one after the other, each under its own
hypotheses.
-/

namespace Monotonicity

open Search

variable {T : Theory} {ρ : Type} {s t : State} {S : ρ → State → Prop} {goal : Goal}
  {rel whole scrutinees : Term} {args : List Term} {flipped : Bool} {arms arms' : List (Arm Term)}

namespace Search

/-! ## Splitting -/

theorem fieldHypotheses_gets {fields : List (FieldRel × Term × Term)} :
    (fieldHypotheses goal whole args flipped fields).Gets s fun hyps t => s.Kept t ∧
      t.minted = s.minted + fields.length ∧
      FieldsAssumed whole args flipped s.minted fields hyps := by
  induction fields generalizing s with
  | nil => exact .pure ⟨.refl s, rfl, .nil⟩
  | cons f rest ih =>
    obtain ⟨field, x, y⟩ := f
    refine (Gets.require .noRule).bind fun r t _ h => ?_
    obtain ⟨hr, rfl⟩ := h
    refine freshConst_gets.bind fun h t₁ _ h₁ => ih.bind fun hyps t₂ _ h₂ => .pure ?_
    obtain ⟨hk₁, hm₁, rfl⟩ := h₁
    obtain ⟨hk₂, hm₂, hyps₂⟩ := h₂
    rw [hm₁] at hm₂ hyps₂
    exact ⟨hk₁.trans hk₂, by rw [hm₂, List.length_cons]; omega, .cons hr hyps₂⟩

theorem length_mintings (hint : String) (n k : Nat) : (Term.mintings hint n k).length = k := by
  simp [Term.mintings]

theorem schemeSplit_gets {pairs : List CasePair} :
    (schemeSplit goal rel whole args flipped arms arms' pairs).Gets s fun cases t => s.Kept t ∧
      SchemeCases rel whole args flipped arms arms' s.minted pairs cases t.minted := by
  induction pairs generalizing s with
  | nil => exact .pure ⟨.refl s, .nil⟩
  | cons pair rest ih =>
    unfold schemeSplit
    split
    · next arm arm' harm harm' =>
      dsimp only
      split
      · next harity =>
        refine freshConsts_gets.bind fun xs t₁ _ h₁ => freshConsts_gets.bind fun ys t₂ _ h₂ => ?_
        refine fieldHypotheses_gets.bind fun hyps t₃ _ h₃ => ?_
        refine (Gets.require .noRule).bind fun left t₄ _ h₄ => ?_
        refine (Gets.require .noRule).bind fun right t₅ _ h₅ => ?_
        refine ih.bind fun cases t₆ _ h₆ => .pure ?_
        obtain ⟨hk₁, hm₁, rfl⟩ := h₁
        obtain ⟨hk₂, hm₂, rfl⟩ := h₂
        obtain ⟨hk₃, hm₃, hfields⟩ := h₃
        obtain ⟨hleft, rfl⟩ := h₄
        obtain ⟨hright, rfl⟩ := h₅
        obtain ⟨hk₆, hcases⟩ := h₆
        simp only [List.length_zip, length_mintings, min_self] at hm₃
        rw [hm₁] at hm₂ hfields hright
        rw [hm₂] at hm₃ hfields
        rw [hm₃] at hcases
        exact ⟨((hk₁.trans hk₂).trans hk₃).trans hk₆,
          .cons rfl harm harm' harity hfields hleft hright hcases⟩
      · exact .noRule
    · exact .noRule

theorem alignedSplit_gets :
    (alignedSplit goal rel arms' arms).Gets s fun cases t => s.Kept t ∧
      AlignedCases rel arms' s.minted arms cases t.minted := by
  induction arms generalizing s with
  | nil => exact .pure ⟨.refl s, .nil⟩
  | cons arm rest ih =>
    refine (Gets.require .noRule).bind fun arm' t₁ _ h₁ => ?_
    refine freshConsts_gets.bind fun xs t₂ _ h₂ => ?_
    refine (Gets.require .noRule).bind fun left t₃ _ h₃ => ?_
    refine (Gets.require .noRule).bind fun right t₄ _ h₄ => ih.bind fun cases t₅ _ h₅ => .pure ?_
    obtain ⟨harm', rfl⟩ := h₁
    obtain ⟨hk₂, hm₂, rfl⟩ := h₂
    obtain ⟨hleft, rfl⟩ := h₃
    obtain ⟨hright, rfl⟩ := h₄
    obtain ⟨hk₅, hcases⟩ := h₅
    obtain ⟨harm', harity⟩ := Option.filter_eq_some_iff.1 harm'
    rw [hm₂] at hcases
    exact ⟨hk₂.trans hk₅, .cons harm' (by simpa using harity) hleft hright hcases⟩

theorem pairsSplit_gets {pairs : List (Arm Term × Arm Term)} :
    (pairsSplit rel pairs).Gets s fun cases t => s.Kept t ∧
      PairCases rel s.minted pairs cases t.minted := by
  induction pairs generalizing s with
  | nil => exact .pure ⟨.refl s, .nil⟩
  | cons pair rest ih =>
    obtain ⟨arm, arm'⟩ := pair
    refine freshConsts_gets.bind fun xs t₁ _ h₁ => freshConsts_gets.bind fun ys t₂ _ h₂ => ?_
    obtain ⟨hk₁, hm₁, rfl⟩ := h₁
    obtain ⟨hk₂, hm₂, rfl⟩ := h₂
    rw [hm₁] at hm₂ ⊢
    split
    · next left right hleft hright =>
      refine ih.bind fun cases t₃ _ h₃ => .pure ?_
      rw [hm₂] at h₃
      exact ⟨(hk₁.trans hk₂).trans h₃.1, .cons hleft hright h₃.2⟩
    · next hnone =>
      refine ih.mono fun cases t₃ _ h₃ => ?_
      rw [hm₂] at h₃
      refine ⟨(hk₁.trans hk₂).trans h₃.1, .skip ?_ h₃.2⟩
      by_contra hsome
      simp only [not_or, ← ne_eq, Option.ne_none_iff_exists'] at hsome
      obtain ⟨⟨left, hleft⟩, right, hright⟩ := hsome
      exact hnone left right hleft hright

/-- A split is made by the scheme of the relation, by equality, or of all pairs of arms. -/
theorem split_gets :
    (split T goal rel scrutinees arms arms').Gets s fun cases t => s.Kept t ∧
      Splits T s.subst rel scrutinees arms arms' s.minted cases t.minted := by
  refine Gets.subst ?_
  have hpairs (hview : s.subst.view scrutinees ≠ .equality)
      (hnone : T.schemeFor? s.subst scrutinees = none) :
      (pairsSplit rel (allPairs arms arms')).Gets s fun cases t => s.Kept t ∧
        Splits T s.subst rel scrutinees arms arms' s.minted cases t.minted :=
    pairsSplit_gets.mono fun cases t _ h => ⟨h.1, .pairs hview hnone h.2⟩
  have hscheme {scheme whole args flipped}
      (h : T.schemeFor? s.subst scrutinees = some (scheme, whole, args, flipped)) :
      (schemeSplit goal rel whole args flipped arms arms' scheme.cases).Gets s fun cases t =>
        s.Kept t ∧ Splits T s.subst rel scrutinees arms arms' s.minted cases t.minted :=
    schemeSplit_gets.mono fun cases t _ h' => ⟨h'.1, .scheme h h'.2⟩
  split
  · next hview => exact alignedSplit_gets.mono fun cases t _ h => ⟨h.1, .aligned hview h.2⟩
  · next head args hview =>
    dsimp only
    split
    · next scheme hs =>
      have h : T.schemeFor? s.subst scrutinees =
          some (scheme, s.subst.resolve scrutinees, args, false) := by
        simp [Theory.schemeFor?, hview, hs]
      exact hscheme h
    · next hs => exact hpairs (by simp [hview]) (by simp [Theory.schemeFor?, hview, hs])
  · next inner hview =>
    split
    · next head args hinner =>
      dsimp only
      split
      · next scheme hs =>
        have h : T.schemeFor? s.subst scrutinees =
            some (scheme, s.subst.resolve inner, args, true) := by
          simp [Theory.schemeFor?, hview, hinner, hs]
        exact hscheme h
      · next hs => exact hpairs (by simp [hview]) (by simp [Theory.schemeFor?, hview, hinner, hs])
    · next hinner =>
      refine hpairs (by simp [hview]) ?_
      simp only [Theory.schemeFor?, hview]
  · next hequality hnamed hflip =>
    refine hpairs hequality ?_
    unfold Theory.schemeFor?
    split
    · next head args h => exact (hnamed head args h).elim
    · next inner h => exact (hflip inner h).elim
    · rfl

/-- Cases are proved in order, each under its own hypotheses. -/
theorem proveCases_yields {prove : Prover} (hprove : (replay T).Met prove)
    {emit : Reduction → Search ρ} {cases : List Case} {done : List Proof}
    (hemit : ∀ ps t, s.Grown t →
      List.Forall₂ (fun (c : Case) p =>
        Justified T s.minted (s.hyps ++ c.hyps) c.goal p t.subst t.delayed) cases ps →
      (emit { premises := done ++ ps }).Yields t S) :
    (proveCases prove emit cases done).Yields s S := by
  induction cases generalizing s done with
  | nil => simpa [proveCases] using hemit [] s (.refl s) .nil
  | cons c rest ih =>
    refine hprove.proveAssuming trivial trivial fun p t ht _ hp => ih fun ps u hu hps => ?_
    rw [List.append_assoc]
    refine hemit (p :: ps) u (ht.trans hu) (.cons ?_ (hps.imp fun c q hq => ?_))
    · exact (replay T).grants_mono hu.subst hu.delayed hp
    · exact (replay T).grants_of_le ht.minted (ht.hyps ▸ hq)

end Search

/-! ## The rule -/

theorem faithful_destruct : Faithful T .destruct := by
  intro prove hprove ρ name goal emit s S hleft hemit
  cases goal with
  | subrel lesser greater => exact .noRule
  | related rel left right =>
    refine Yields.subst ?_
    split
    · next l arms r arms' hl hr =>
      refine freshVar_gets.yields fun v t₁ _ h₁ => ?_
      obtain ⟨hk₁, hm₁, rfl⟩ := h₁
      refine (hprove trivial trivial fun p t₂ h₂ => ?_).yields
      refine split_gets.yields fun cases t₃ _ h₃ => ?_
      refine proveCases_yields hprove fun ps t₄ h₄ hps => hemit _ t₄ ?_
      obtain ⟨hk₃, hsplit⟩ := h₃
      have hs₂ : s.Grown t₂ := hk₁.grown.trans h₂.grown
      have hs₃ : s.Grown t₃ := hs₂.trans hk₃.grown
      refine ⟨hs₃.trans h₄, fun σ w hσ hle hw => ?_⟩
      have hle₂ : t₂.subst ≤ σ := Subst.le_trans (hk₃.grown.trans h₄).subst hle
      have hw₂ : t₂.delayed <+: w := (hk₃.grown.trans h₄).delayed.trans hw
      -- the scrutinees were related before the split, and the cases proved after it
      have hscrutinees := h₂.grants σ w hσ hle₂ hw₂
      have hearly := h₂.grants t₂.subst t₂.delayed (hσ.of_le hle₂) (Subst.le_refl _)
        (List.prefix_refl _)
      rw [hm₁, hk₁.hyps] at hscrutinees hearly
      have hcases : List.Forall₂ (fun (c : Case) p => Derives T σ (w.map (·.resolve σ)) t₃.minted
          (s.hyps.map (·.resolve σ) ++ c.hyps.map (·.resolve σ)) (c.goal.resolve σ) p) cases ps :=
        hps.imp fun c p hp => by
          rw [← List.map_append, ← hs₃.hyps]
          exact hp σ w hσ hle hw
      obtain ⟨rest, hrest, rfl, hderived⟩ :=
        exists_premises (fun c : Case => c.hyps.map (·.resolve σ)) (·.goal.resolve σ) hcases
      let early : Moment := ⟨t₂.subst, t₂.delayed.map (·.resolve t₂.subst),
        s.hyps.map (·.resolve t₂.subst)⟩
      have hbefore : early.Before σ (w.map (·.resolve σ)) (s.hyps.map (·.resolve σ)) := by
        refine ⟨hle₂, ?_, ?_⟩
        · simpa [early, Function.comp_def, Pending.resolve_resolve hσ hle₂] using hw₂.map _
        · simp [early, Function.comp_def, Hypothesis.resolve_resolve hσ hle₂]
      refine ⟨s.minted, s.minted, .settled early s.minted _ _ :: rest, le_rfl,
        (hs₃.trans h₄).minted, rfl, allDerived_settled hscrutinees hearly hderived,
        fun owed howed => ?_⟩
      cases howed
      obtain ⟨-, hlw, hrw⟩ := Goal.left_related.1
        (hleft (hσ.of_le (Subst.le_trans (hs₃.trans h₄).subst hle)))
      rw [hlw.walk_eq] at hl
      rw [hrw.walk_eq] at hr
      subst hl hr
      rw [List.append_nil]
      exact .destruct hbefore hs₂.minted hsplit hrest
    · exact .noRule

end Monotonicity
