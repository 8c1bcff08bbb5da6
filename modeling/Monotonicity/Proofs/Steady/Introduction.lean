import Monotonicity.Proofs.Calculus.Introduction
import Monotonicity.Proofs.Search.Watch

/-!
# Introduction, congruence and last resorts are steady

The rules that go by the shape of a goal's relation, those for equality, those that commit a
placeholder and the one that puts a goal off follow courses only.
-/

namespace Monotonicity

open Search

variable {T : Theory} {fuel : Nat} {F : Handover}

/-! ## Rules without premises -/

theorem steady_top : Steady T fuel F .top := by
  intro w prove prove' _ ρ name goal emit emit' s S _ _ hemit
  exact hemit {} s emitted_start

theorem steady_eqRefl : Steady T fuel F .eqRefl := by
  refine .of_gets eqRefl (fun _ _ _ _ => rfl) (fun _ _ _ _ => rfl) fun goal s _ => ?_
  cases goal with
  | subrel lesser greater => exact .noRule
  | related rel left right =>
    refine Gets.subst ?_
    split
    · exact .pure emitted_start
    · exact .noRule

theorem steady_eqUnify : Steady T fuel F .eqUnify := by
  refine .of_gets eqUnify (fun _ _ _ _ => rfl) (fun _ _ _ _ => rfl) fun goal s _ => ?_
  cases goal with
  | subrel lesser greater => exact .noRule
  | related rel left right =>
    have hunify : (Search.unify left right).Gets s fun _ t =>
        Course T F s (.related rel left right) [] t :=
      Course.start.unify_gets (fun V hV => (Goal.over_related.1 hV.goal).2.1)
        fun V hV => (Goal.over_related.1 hV.goal).2.2
    refine hunify.bind fun ok t _ ht => ?_
    cases ok with
    | true => exact .pure ⟨ht, by simp⟩
    | false => exact .noRule

theorem steady_reflPlaceholder : Steady T fuel F .reflPlaceholder := by
  refine .of_gets reflPlaceholder (fun _ _ _ _ => rfl) (fun _ _ _ _ => rfl) fun goal s _ => ?_
  cases goal with
  | subrel lesser greater => exact .noRule
  | related rel left right =>
    have hsides : (Search.unify left right).Gets s fun _ t =>
        Course T F s (.related rel left right) [] t :=
      Course.start.unify_gets (fun V hV => (Goal.over_related.1 hV.goal).2.1)
        fun V hV => (Goal.over_related.1 hV.goal).2.2
    refine hsides.bind fun ok t _ ht => ?_
    cases ok with
    | false => exact .noRule
    | true =>
      have hrel : (Search.unify rel .equality).Gets t fun _ u =>
          Course T F s (.related rel left right) [] u :=
        ht.unify_gets (fun V hV => (Goal.over_related.1 hV.goal).1) fun V hV => by
          simp [Term.equality]
      refine hrel.bind fun ok u _ hu => ?_
      cases ok with
      | true => exact .pure ⟨hu, by simp⟩
      | false => exact .noRule

theorem steady_deferUnsolved : Steady T fuel F .deferUnsolved := by
  refine .of_gets (deferUnsolved T) (fun _ _ _ _ => rfl) (fun _ _ _ _ => rfl) fun goal s _ => ?_
  unfold deferUnsolved
  split
  · exact Course.start.defer_gets.bind fun p t _ ht => .pure ⟨ht, by simp⟩
  · exact .noRule

/-! ## Rules that leave subgoals -/

theorem steady_flipIntro : Steady T fuel F .flipIntro := by
  refine .of_gets flipIntro (fun _ _ _ _ => rfl) (fun _ _ _ _ => rfl) fun goal s _ => ?_
  cases goal with
  | subrel lesser greater => exact .noRule
  | related rel left right =>
    refine Gets.subst ?_
    split
    · next inner hview =>
      refine .pure ⟨.start, fun V hV => ?_⟩
      obtain ⟨hrel, hleft, hright⟩ := Goal.over_related.1 hV.goal
      have hinner : inner.Over V := hV.view hrel hview (by simp [View.parts])
      simp [hinner, hleft, hright]
    · exact .noRule

theorem steady_eqCongruence : Steady T fuel F .eqCongruence := by
  refine .of_gets eqCongruence (fun _ _ _ _ => rfl) (fun _ _ _ _ => rfl) fun goal s _ => ?_
  cases goal with
  | subrel lesser greater => exact .noRule
  | related rel left right =>
    refine Gets.subst ?_
    split
    · next f xs g ys hl hr =>
      split
      · refine .pure ⟨.start, fun V hV => ?_⟩
        obtain ⟨hrel, hleft, hright⟩ := Goal.over_related.1 hV.goal
        have hxs := hV.state.bindings.walk hleft
        have hys := hV.state.bindings.walk hright
        rw [hl, Term.over_app] at hxs
        rw [hr, Term.over_app] at hys
        simp only [List.forall_mem_map, Goal.over_related]
        exact fun p hp => ⟨hrel, hxs _ (List.of_mem_zip hp).1, hys _ (List.of_mem_zip hp).2⟩
      · exact .noRule
    · exact .noRule

/-! ## Rules that introduce constants -/

theorem steady_arrowIntro : Steady T fuel F .arrowIntro := by
  intro w prove prove' hprove ρ name goal emit emit' s S hs hacyclic hemit
  cases goal with
  | subrel lesser greater => exact .noRule
  | related rel left right =>
    refine Follows.subst ?_
    cases hview : s.subst.view rel with
    | arrow dom cod =>
      refine freshConst_gets.follows fun x t₁ _ h₁ => freshConst_gets.follows fun y t₂ _ h₂ => ?_
      refine applied_gets.follows fun r t₃ _ h₃ => freshConst_gets.follows fun h t₄ _ h₄ => ?_
      obtain ⟨hk₁, -, rfl⟩ := h₁
      obtain ⟨hk₂, -, rfl⟩ := h₂
      obtain ⟨rfl, hfx, hgy⟩ := h₃
      obtain ⟨hk₄, -, rfl⟩ := h₄
      refine hprove.proveAssuming hs hacyclic (Course.start.keep ((hk₁.trans hk₂).trans hk₄))
        (fun V hV => ?_) (fun V hV => ?_) fun p u _ hu => hemit _ u ⟨hu, by simp⟩
      all_goals
        have hbefore := hV.of_kept ((hk₁.trans hk₂).trans hk₄)
        obtain ⟨hrel, hleft, hright⟩ := Goal.over_related.1 hV.goal
      · have hdom : dom.Over V := hbefore.view hrel hview (by simp [View.parts])
        simpa using ⟨hdom, by simp, by simp, by simp⟩
      · have hcod : cod.Over V := hbefore.view hrel hview (by simp [View.parts])
        have hbindings := (hV.of_kept hk₄).state.bindings
        refine Goal.over_related.2 ⟨hcod, ?_, ?_⟩
        · exact (hbindings.walk hleft).extend? (by simp) hfx
        · exact (hbindings.walk hright).extend? (by simp) hgy
    | _ => exact .noRule

theorem steady_dependentIntro : Steady T fuel F .dependentIntro := by
  intro w prove prove' hprove ρ name goal emit emit' s S hs hacyclic hemit
  cases goal with
  | subrel lesser greater => exact .noRule
  | related rel left right =>
    refine Follows.subst ?_
    cases hview : s.subst.view rel with
    | dependent edge family =>
      refine freshConst_gets.follows fun v t₁ _ h₁ => freshConst_gets.follows fun w t₂ _ h₂ => ?_
      refine freshConst_gets.follows fun e t₃ _ h₃ => applied_gets.follows fun r t₄ _ h₄ => ?_
      obtain ⟨hk₁, -, rfl⟩ := h₁
      obtain ⟨hk₂, -, rfl⟩ := h₂
      obtain ⟨hk₃, -, rfl⟩ := h₃
      obtain ⟨rfl, hfv, hgw⟩ := h₄
      refine Follows.subst ((Gets.require .noRule).follows fun inst t₅ _ h₅ => ?_)
      obtain ⟨hinst, rfl⟩ := h₅
      refine hprove.proveAssuming hs hacyclic (Course.start.keep ((hk₁.trans hk₂).trans hk₃))
        (fun V hV => ?_) (fun V hV => ?_) fun p u _ hu => hemit _ u ⟨hu, by simp⟩
      all_goals
        have hbefore := hV.of_kept ((hk₁.trans hk₂).trans hk₃)
        obtain ⟨hrel, hleft, hright⟩ := Goal.over_related.1 hV.goal
      · have hedge : edge.Over V := hbefore.view hrel hview (by simp [View.parts])
        simpa using ⟨hedge, by simp, by simp, by simp⟩
      · have hfamily : family.Over V := hbefore.view hrel hview (by simp [View.parts])
        have hbindings := hV.state.bindings
        refine Goal.over_related.2 ⟨?_, ?_, ?_⟩
        · exact hbindings.family? hfamily (by simp) (by simp) (by simp) hinst
        · exact (hbindings.walk hleft).extend? (by simp) hfv
        · exact (hbindings.walk hright).extend? (by simp) hgw
    | _ => exact .noRule

end Monotonicity
