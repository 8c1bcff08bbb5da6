import Monotonicity.Proofs.Calculus.Offer

/-!
# The rules that go by shape emit what the calculus prescribes

Introduction of relations, congruence of equality, and the last resorts. The goal that these rules
look at is left alone by the bindings, so what they see of it is the goal as it stands.
-/

namespace Monotonicity

open Search

variable {T : Theory} {s t : State} {goal : Goal} {rel left right x y : Term}

/-! ## Closing a goal -/

theorem faithful_top : Faithful T .top := by
  intro prove _ ρ name goal emit s S _ hemit
  exact hemit _ s (.closed (.refl s) fun _ _ _ _ => .top)

theorem faithful_eqRefl : Faithful T .eqRefl := by
  refine Faithful.of_gets eqRefl (fun _ _ _ _ => rfl) fun goal s hleft => ?_
  cases goal with
  | subrel lesser greater => exact .noRule
  | related rel left right =>
    refine Gets.subst ?_
    split
    · next heq =>
      refine .pure (.closed (.refl s) fun σ w hσ hle => ?_)
      obtain ⟨-, hl, hr⟩ := Goal.left_related.1 (hleft (hσ.of_le hle))
      rw [hl.resolve_eq, hr.resolve_eq] at heq
      subst heq
      exact .eqRefl
    · exact .noRule

theorem faithful_eqUnify : Faithful T .eqUnify := by
  refine Faithful.of_gets eqUnify (fun _ _ _ _ => rfl) fun goal s _ => ?_
  cases goal with
  | subrel lesser greater => exact .noRule
  | related rel left right =>
    refine Gets.unify (fun t ht h => ?_) fun _ _ => .noRule
    refine .pure (.closed ht fun σ w hσ hle => ?_)
    exact .eqUnify ((Subst.unify_gains h).resolve_eq hσ hle)

theorem faithful_reflPlaceholder : Faithful T .reflPlaceholder := by
  refine Faithful.of_gets reflPlaceholder (fun _ _ _ _ => rfl) fun goal s _ => ?_
  cases goal with
  | subrel lesser greater => exact .noRule
  | related rel left right =>
    refine Gets.unify (fun t ht h => ?_) fun _ _ => .noRule
    refine Gets.unify (fun u hu h' => ?_) fun _ _ => .noRule
    refine .pure (.closed (ht.trans hu) fun σ w hσ hle => ?_)
    refine .reflPlaceholder ?_ ?_
    · exact (Subst.unify_gains h).resolve_eq hσ (Subst.le_trans hu.subst hle)
    · rw [(Subst.unify_gains h').resolve_eq hσ hle, Term.equality, hσ.resolve_app]
      rfl

theorem deferUnsolved_gets {goal : Goal} {s : State} :
    (deferUnsolved T goal).Gets s fun r t => T.limits.deferUnsolved = true ∧
      r = { premises := [.deferred s.delayed.length] } ∧ t.subst = s.subst ∧
      t.delayed = s.delayed ++ [⟨goal.resolve s.subst, s.hyps⟩] := by
  unfold deferUnsolved
  split
  · next hlimits =>
    refine defer_gets.bind fun p t _ h => .pure ?_
    obtain ⟨hsubst, rfl, hdelayed⟩ := h
    exact ⟨hlimits, rfl, hsubst, hdelayed⟩
  · exact .noRule

/-- The obligation put off is found at its position, under the final bindings. -/
theorem faithful_deferUnsolved : Faithful T .deferUnsolved := by
  refine Faithful.of_gets (deferUnsolved T) (fun _ _ _ _ => rfl) fun goal s _ => ?_
  refine deferUnsolved_gets.mono fun r t ht h => ?_
  obtain ⟨hlimits, rfl, hsubst, hdelayed⟩ := h
  refine .of_leaf ht fun σ w rest hσ hle hw hrest => ?_
  cases hrest
  refine .deferUnsolved hlimits ?_
  rw [hdelayed] at hw
  have hi : w[s.delayed.length]? = some ⟨goal.resolve s.subst, s.hyps⟩ := by
    obtain ⟨later, rfl⟩ := hw
    simp
  rw [hsubst] at hle
  simp [hi, Pending.resolve, Goal.resolve_resolve hσ hle]

/-! ## Introducing a relation -/

theorem faithful_flipIntro : Faithful T .flipIntro := by
  refine Faithful.of_gets flipIntro (fun _ _ _ _ => rfl) fun goal s hleft => ?_
  cases goal with
  | subrel lesser greater => exact .noRule
  | related rel left right =>
    refine Gets.subst ?_
    split
    · next inner hview =>
      refine .pure (.of_subgoals (.refl s) le_rfl le_rfl fun σ w rest hσ hle hrest => ?_)
      obtain ⟨hrel, -, -⟩ := Goal.left_related.1 (hleft (hσ.of_le hle))
      rw [hrel.view_eq] at hview
      exact .flipIntro hview hrest
    · exact .noRule

theorem applied_gets :
    (applied goal left right x y).Gets s fun r t => t = s ∧
      (s.subst.walk left).extend? [x] = some r.1 ∧ (s.subst.walk right).extend? [y] = some r.2 := by
  refine Gets.subst ?_
  split
  · next fx gy hl hr => exact .pure ⟨rfl, hl, hr⟩
  · exact .noRule

theorem faithful_arrowIntro : Faithful T .arrowIntro := by
  intro prove hprove ρ name goal emit s S hleft hemit
  cases goal with
  | subrel lesser greater => exact .noRule
  | related rel left right =>
    refine Yields.subst ?_
    split
    · next dom cod hview =>
      refine freshConst_gets.yields fun x t₁ _ h₁ => freshConst_gets.yields fun y t₂ _ h₂ => ?_
      refine applied_gets.yields fun r t₃ _ h₃ => freshConst_gets.yields fun h t₄ _ h₄ => ?_
      obtain ⟨hk₁, hm₁, rfl⟩ := h₁
      obtain ⟨hk₂, hm₂, rfl⟩ := h₂
      obtain ⟨rfl, hfx, hgy⟩ := h₃
      obtain ⟨hk₄, hm₄, rfl⟩ := h₄
      have hk : s.Kept t₄ := (hk₁.trans hk₂).trans hk₄
      rw [hm₁] at hm₂ hgy ⊢
      rw [hm₂] at hm₄ ⊢
      refine hprove.proveAssuming trivial trivial fun p u hu _ hp => hemit _ u ?_
      rw [hm₄, hk.hyps] at hp
      refine .of_premise (hk.grown.trans hu) le_rfl hp fun σ w hσ hle => ?_
      obtain ⟨hrel, hl, hr⟩ := Goal.left_related.1
        (hleft (hσ.of_le (Subst.le_trans (hk.grown.trans hu).subst hle)))
      rw [hrel.view_eq] at hview
      rw [(hk₁.trans hk₂).subst, hl.walk_eq] at hfx
      rw [(hk₁.trans hk₂).subst, hr.walk_eq] at hgy
      exact .arrowIntro hview hfx hgy
    · exact .noRule

theorem faithful_dependentIntro : Faithful T .dependentIntro := by
  intro prove hprove ρ name goal emit s S hleft hemit
  cases goal with
  | subrel lesser greater => exact .noRule
  | related rel left right =>
    refine Yields.subst ?_
    split
    · next edge family hview =>
      refine freshConst_gets.yields fun v t₁ _ h₁ => freshConst_gets.yields fun w t₂ _ h₂ => ?_
      refine freshConst_gets.yields fun e t₃ _ h₃ => applied_gets.yields fun r t₄ _ h₄ => ?_
      obtain ⟨hk₁, hm₁, rfl⟩ := h₁
      obtain ⟨hk₂, hm₂, rfl⟩ := h₂
      obtain ⟨hk₃, hm₃, rfl⟩ := h₃
      obtain ⟨rfl, hfv, hgw⟩ := h₄
      have hk : s.Kept t₄ := (hk₁.trans hk₂).trans hk₃
      rw [hm₁] at hm₂ hgw ⊢
      rw [hm₂] at hm₃ ⊢
      refine Yields.subst ((Gets.require .noRule).yields fun inst t₅ _ h₅ => ?_)
      obtain ⟨hinst, rfl⟩ := h₅
      refine hprove.proveAssuming trivial trivial fun p u hu _ hp => hemit _ u ?_
      rw [hm₃, hk.hyps] at hp
      refine .of_premise (hk.grown.trans hu) le_rfl hp fun σ w hσ hle => ?_
      obtain ⟨hrel, hl, hr⟩ := Goal.left_related.1
        (hleft (hσ.of_le (Subst.le_trans (hk.grown.trans hu).subst hle)))
      rw [hrel.view_eq] at hview
      rw [hk.subst, hl.walk_eq] at hfv
      rw [hk.subst, hr.walk_eq] at hgw
      rw [hk.subst, (hrel.parts (by simp [hview, View.parts])).family?_eq] at hinst
      exact .dependentIntro hview hfv hgw hinst
    · exact .noRule

theorem fieldGoals_gets {whole : Term} {args : List Term} {fields : List (FieldRel × Term × Term)} :
    (fieldGoals goal whole args fields).Gets s fun goals t => t = s ∧
      List.Forall₂ (fun (f : FieldRel × Term × Term) g => ∃ r,
        f.1.relation? whole args = some r ∧ g = Goal.related r f.2.1 f.2.2) fields goals := by
  induction fields with
  | nil => exact .pure ⟨rfl, .nil⟩
  | cons f rest ih =>
    obtain ⟨field, x, y⟩ := f
    refine (Gets.require .noRule).bind fun r t _ h => ?_
    obtain ⟨hr, rfl⟩ := h
    refine ih.bind fun goals u _ h => .pure ?_
    exact ⟨h.1, .cons ⟨r, hr, rfl⟩ h.2⟩

theorem faithful_relatorIntro : Faithful T .relatorIntro := by
  refine Faithful.of_gets (relatorIntro T) (fun _ _ _ _ => rfl) fun goal s hleft => ?_
  cases goal with
  | subrel lesser greater => exact .noRule
  | related rel left right =>
    refine Gets.subst ?_
    split
    · next head args hview =>
      refine (Gets.require .noRule).bind fun scheme t _ h => ?_
      obtain ⟨hscheme, rfl⟩ := h
      split
      · next c xs c' ys hl hr =>
        refine (Gets.require .noRule).bind fun pair u _ h => ?_
        obtain ⟨hpair, rfl⟩ := h
        refine fieldGoals_gets.bind fun goals v _ h => .pure ?_
        obtain ⟨rfl, hgoals⟩ := h
        refine .of_subgoals (.refl v) le_rfl le_rfl fun σ w rest hσ hle hrest => ?_
        obtain ⟨hrel, hleft, hright⟩ := Goal.left_related.1 (hleft (hσ.of_le hle))
        rw [hrel.view_eq] at hview
        rw [hleft.walk_eq] at hl
        rw [hright.walk_eq] at hr
        rw [hrel.resolve_eq] at hgoals
        subst hl hr
        exact .relatorIntro hview hscheme hpair hgoals hrest
      · exact .noRule
    · exact .noRule

/-! ## Congruence and reduction -/

theorem faithful_eqCongruence : Faithful T .eqCongruence := by
  refine Faithful.of_gets eqCongruence (fun _ _ _ _ => rfl) fun goal s hleft => ?_
  cases goal with
  | subrel lesser greater => exact .noRule
  | related rel left right =>
    refine Gets.subst ?_
    split
    · next f xs g ys hl hr =>
      split
      · next h =>
        obtain ⟨rfl, hlen, hxs⟩ := h
        refine .pure (.of_subgoals (.refl s) le_rfl le_rfl fun σ w rest hσ hle hrest => ?_)
        obtain ⟨-, hleft, hright⟩ := Goal.left_related.1 (hleft (hσ.of_le hle))
        rw [hleft.walk_eq] at hl
        rw [hright.walk_eq] at hr
        subst hl hr
        rw [List.map_map] at hrest
        exact .eqCongruence hlen hxs hrest
      · exact .noRule
    · exact .noRule

/-- Which arm a case analysis takes can be seen on the term as it stands. -/
theorem Subst.Leaves.taken?_eq {σ : Subst} {t : Term} (h : σ.Leaves t) :
    taken? σ t = taken? .empty t := by
  unfold taken?
  rw [h.walk_eq, (Subst.empty_leaves t).walk_eq]
  cases t with
  | var i => rfl
  | app head args => rfl
  | cases s arms =>
    have hs := (Subst.leaves_cases.1 h).1
    simp only [hs.walk_eq, (Subst.empty_leaves s).walk_eq]

theorem faithful_casesReduce : Faithful T .casesReduce := by
  refine Faithful.of_gets casesReduce (fun _ _ _ _ => rfl) fun goal s hleft => ?_
  cases goal with
  | subrel lesser greater => exact .noRule
  | related rel left right =>
    refine Gets.subst ?_
    split
    · exact .noRule
    · next hsome =>
      refine .pure (.of_subgoals (.refl s) le_rfl le_rfl fun σ w rest hσ hle hrest => ?_)
      obtain ⟨-, hl, hr⟩ := Goal.left_related.1 (hleft (hσ.of_le hle))
      rw [hl.taken?_eq, hr.taken?_eq] at hrest hsome
      refine .casesReduce ?_ hrest
      by_contra hnone
      simp only [not_or, not_not] at hnone
      exact hsome hnone.1 hnone.2

end Monotonicity
