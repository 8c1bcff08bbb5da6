import Monotonicity.Proofs.Calculus.Offer

/-!
# The rules for inclusions emit what the calculus prescribes

What a rule for inclusions can emit is said first in terms of the bindings: which terms it unifies,
one pair after the other. That what it emits is offered follows, since unified terms have equal
values from then on.
-/

namespace Monotonicity

open Search

variable {T : Theory} {ρ : Type} {s t : State} {S : ρ → State → Prop} {goal : Goal}
  {lesser greater : Term} {emit : Reduction → Search ρ}

namespace Search

/-! ## What the rules emit -/

theorem subrelRefl_gets :
    (subrelRefl (.subrel lesser greater)).Gets s fun r t => r = {} ∧
      (t = s ∧ s.subst.view lesser = s.subst.view greater ∨
        Subst.Unified s.subst [(lesser, greater)] t.subst) := by
  refine Gets.subst ?_
  split
  · next hview => exact .pure ⟨rfl, .inl ⟨rfl, hview⟩⟩
  · refine Gets.unify (fun t _ h => ?_) fun _ _ => .noRule
    exact .pure ⟨rfl, .inr (Subst.unified_one h)⟩

theorem subrelExtremes_gets :
    (subrelExtremes (.subrel lesser greater)).Gets s fun r t => r = {} ∧ t = s ∧
      (s.subst.view greater = .top ∨ s.subst.view lesser = .bottom) := by
  refine Gets.subst ?_
  split
  · next h => exact .pure ⟨rfl, rfl, h⟩
  · exact .noRule

/-- Every registered inclusion is tried from the state that the first one found, renamed. -/
theorem eachInclusion_yields {run : Nat → Term → Term → Search ρ}
    (hrun : ∀ id f offset t, T.registry.inclusions[id]? = some f → s.Kept t →
      (run id (f.lesser.rename offset) (f.greater.rename offset)).Yields t S) :
    (eachInclusion T goal run).Yields s S := by
  refine tryEach_yields ?_ fun _ _ _ => .failBest .noRule
  rintro ⟨f, id⟩ hmem t ht
  have hf : T.registry.inclusions[id]? = some f := by
    simpa [List.mem_zipIdx_iff_getElem?] using hmem
  exact reserve_gets.yields fun offset u _ hu => hrun id f offset u hf (ht.trans hu.1)

theorem subrelFact_yields
    (hemit : ∀ id f offset t, s.Grown t → T.registry.inclusions[id]? = some f →
      Subst.Unified s.subst [(lesser, f.lesser.rename offset), (greater, f.greater.rename offset)]
        t.subst → (emit { premises := [.inclusion id] }).Yields t S) :
    (subrelFact T (.subrel lesser greater) emit).Yields s S := by
  refine eachInclusion_yields fun id f offset t hf ht => ?_
  refine Yields.unify (fun u hu h => ?_) fun _ _ => .noRule
  refine Yields.unify (fun v hv h' => ?_) fun _ _ => .noRule
  refine hemit id f offset v ((ht.grown.trans hu).trans hv) hf ?_
  rw [← ht.subst]
  exact .cons h (Subst.unified_one h')

theorem subrelTrans_yields
    (hemit : ∀ id f offset t, s.Grown t → T.registry.inclusions[id]? = some f →
      Subst.Unified s.subst [(lesser, f.lesser.rename offset)] t.subst →
      (emit { premises := [.inclusion id],
              subgoals := [.subrel (f.greater.rename offset) greater] }).Yields t S) :
    (subrelTrans T (.subrel lesser greater) emit).Yields s S := by
  refine eachInclusion_yields fun id f offset t hf ht => ?_
  refine Yields.unify (fun u hu h => ?_) fun _ _ => .noRule
  refine hemit id f offset u (ht.grown.trans hu) hf ?_
  rw [← ht.subst]
  exact Subst.unified_one h

end Search

/-- The pairs of arguments that have to agree. -/
def invariantPairs : List (Term × Term × Variance) → List (Term × Term)
  | [] => []
  | (a, b, .invariant) :: rest => (a, b) :: invariantPairs rest
  | _ :: rest => invariantPairs rest

theorem mem_invariantPairs {arguments : List (Term × Term × Variance)} {a b : Term} :
    (a, b) ∈ invariantPairs arguments ↔ (a, b, Variance.invariant) ∈ arguments := by
  fun_induction invariantPairs arguments with
  | case1 => simp
  | case2 a' b' rest ih => simp [ih]
  | case3 x rest hne ih =>
    obtain ⟨a', b', v⟩ := x
    cases v with
    | invariant => exact (hne a' b' rfl).elim
    | covariant => simp [ih]
    | contravariant => simp [ih]

namespace Search

theorem argumentInclusions_gets {arguments : List (Term × Term × Variance)} :
    (argumentInclusions goal arguments).Gets s fun goals t => goals = argumentGoals arguments ∧
      Subst.Unified s.subst (invariantPairs arguments) t.subst := by
  induction arguments generalizing s with
  | nil => exact .pure ⟨rfl, .nil⟩
  | cons x rest ih =>
    obtain ⟨a, b, v⟩ := x
    cases v with
    | covariant => exact ih.bind fun goals t _ h => .pure ⟨by rw [h.1]; rfl, h.2⟩
    | contravariant => exact ih.bind fun goals t _ h => .pure ⟨by rw [h.1]; rfl, h.2⟩
    | invariant =>
      refine Gets.unify (fun t _ h => ?_) fun _ _ => .noRule
      exact ih.mono fun goals u _ hgoals => ⟨hgoals.1, .cons h hgoals.2⟩

/-- What the structural rule makes of an inclusion as it is seen through a substitution: pairs of
terms that it unifies, goals, and the number up to which it uses new constants. -/
inductive Structural (T : Theory) (υ : Subst) (n : Nat) (lesser greater : Term) :
    List (Term × Term) → List Goal → Nat → Prop
  | arrow {a b a' b'} (h : υ.view lesser = .arrow a b) (h' : υ.view greater = .arrow a' b') :
      Structural T υ n lesser greater [] [.subrel a' a, .subrel b b'] n
  | flip {a b} (h : υ.view lesser = .flip a) (h' : υ.view greater = .flip b) :
      Structural T υ n lesser greater [] [.subrel a b] n
  | dependent {e f e' f' r r'} (h : υ.view lesser = .dependent e f)
      (h' : υ.view greater = .dependent e' f')
      (hr : υ.family? f (.minting "v" n) (.minting "v" (n + 1)) (.minting "e" (n + 2)) = some r)
      (hr' : υ.family? f' (.minting "v" n) (.minting "v" (n + 1)) (.minting "e" (n + 2)) =
        some r') :
      Structural T υ n lesser greater [] [.subrel e' e, .subrel r r'] (n + 3)
  | named {head xs ys variances} (h : υ.view lesser = .named head xs)
      (h' : υ.view greater = .named head ys) (hlen : xs.length = ys.length)
      (hv : T.registry.variances.get? head = some variances)
      (hlen' : variances.length = xs.length) :
      Structural T υ n lesser greater (invariantPairs (xs.zip (ys.zip variances)))
        (argumentGoals (xs.zip (ys.zip variances))) n

theorem subrelStructural_gets :
    (subrelStructural T (.subrel lesser greater)).Gets s fun r t => ∃ pairs goals m,
      r = { subgoals := goals } ∧ Structural T s.subst s.minted lesser greater pairs goals m ∧
        m ≤ t.minted ∧ Subst.Unified s.subst pairs t.subst := by
  refine Gets.subst ?_
  split
  · next a b a' b' h h' => exact .pure ⟨[], _, _, rfl, .arrow h h', le_rfl, .nil⟩
  · next a b h h' => exact .pure ⟨[], _, _, rfl, .flip h h', le_rfl, .nil⟩
  · next e f e' f' h h' =>
    refine freshConst_gets.bind fun v t₁ _ h₁ => freshConst_gets.bind fun w t₂ _ h₂ => ?_
    refine freshConst_gets.bind fun x t₃ _ h₃ => ?_
    obtain ⟨hk₁, hm₁, rfl⟩ := h₁
    obtain ⟨hk₂, hm₂, rfl⟩ := h₂
    obtain ⟨hk₃, hm₃, rfl⟩ := h₃
    rw [hm₂, hm₁]
    split
    · next r r' hr hr' =>
      refine .pure ⟨[], _, _, rfl, .dependent h h' hr hr', by omega, ?_⟩
      rw [((hk₁.trans hk₂).trans hk₃).subst]
      exact .nil
    · exact .noRule
  · next head xs head' ys h h' =>
    split
    · next heq =>
      obtain ⟨rfl, hlen⟩ := heq
      refine (Gets.require .noRule).bind fun variances t _ hv => ?_
      obtain ⟨hv, rfl⟩ := hv
      split
      · next hlen' =>
        refine argumentInclusions_gets.bind fun goals u hu hgoals => .pure ?_
        obtain ⟨rfl, hunified⟩ := hgoals
        exact ⟨_, _, _, rfl, .named h h' hlen hv hlen', hu.minted, hunified⟩
      · exact .noRule
    · exact .noRule
  · exact .noRule

end Search

/-! ## What they emit is offered -/

theorem faithful_subrelRefl : Faithful T .subrelRefl := by
  intro prove _ ρ name goal emit s S hleft hemit
  cases goal with
  | related rel left right => exact .noRule
  | subrel lesser greater =>
    refine subrelRefl_gets.yields fun r t hs hr => ?_
    obtain ⟨rfl, hr⟩ := hr
    refine hemit _ t (.closed hs fun σ w hσ hle => ?_)
    rcases hr with ⟨-, hview⟩ | hunified
    · obtain ⟨hl, hg⟩ := Goal.left_subrel.1 (hleft (hσ.of_le (Subst.le_trans hs.subst hle)))
      rw [hl.view_eq, hg.view_eq] at hview
      exact .subrelSame hview
    · exact .subrelUnified (hunified.resolve_eq (by simp) hσ hle)

theorem faithful_subrelExtremes : Faithful T .subrelExtremes := by
  intro prove _ ρ name goal emit s S hleft hemit
  cases goal with
  | related rel left right => exact .noRule
  | subrel lesser greater =>
    refine subrelExtremes_gets.yields fun r t hs hr => ?_
    obtain ⟨rfl, rfl, hview⟩ := hr
    refine hemit _ t (.closed hs fun σ w hσ hle => ?_)
    obtain ⟨hl, hg⟩ := Goal.left_subrel.1 (hleft (hσ.of_le hle))
    rw [hl.view_eq, hg.view_eq] at hview
    exact .subrelExtremes hview

theorem faithful_subrelFact : Faithful T .subrelFact := by
  intro prove _ ρ name goal emit s S _ hemit
  cases goal with
  | related rel left right => exact .noRule
  | subrel lesser greater =>
    refine subrelFact_yields fun id f offset t hs hf hunified => hemit _ t ?_
    refine .of_leaf hs fun σ w rest hσ hle _ hrest => ?_
    cases hrest
    have hl : σ.resolve lesser = σ.resolve (f.lesser.rename offset) :=
      hunified.resolve_eq (by simp) hσ hle
    have hg : σ.resolve greater = σ.resolve (f.greater.rename offset) :=
      hunified.resolve_eq (by simp) hσ hle
    exact .subrelFact hf hl hg

theorem faithful_subrelTrans : Faithful T .subrelTrans := by
  intro prove _ ρ name goal emit s S _ hemit
  cases goal with
  | related rel left right => exact .noRule
  | subrel lesser greater =>
    refine subrelTrans_yields fun id f offset t hs hf hunified => hemit _ t ?_
    refine .of_leaf hs fun σ w rest hσ hle _ hrest => ?_
    have hl : σ.resolve lesser = σ.resolve (f.lesser.rename offset) :=
      hunified.resolve_eq (by simp) hσ hle
    exact .subrelTrans hf hl hrest

theorem faithful_subrelStructural : Faithful T .subrelStructural := by
  intro prove _ ρ name goal emit s S hleft hemit
  cases goal with
  | related rel left right => exact .noRule
  | subrel lesser greater =>
    refine subrelStructural_gets.yields fun r t hs hr => ?_
    obtain ⟨pairs, goals, m, rfl, hstruct, hm, hunified⟩ := hr
    refine hemit _ t (.of_subgoals hs le_rfl hm fun σ w rest hσ hle hrest => ?_)
    obtain ⟨hl, hg⟩ := Goal.left_subrel.1 (hleft (hσ.of_le (Subst.le_trans hs.subst hle)))
    cases hstruct with
    | arrow h h' =>
      rw [hl.view_eq] at h
      rw [hg.view_eq] at h'
      exact .subrelArrow h h' hrest
    | flip h h' =>
      rw [hl.view_eq] at h
      rw [hg.view_eq] at h'
      exact .subrelFlip h h' hrest
    | dependent h h' hr hr' =>
      rw [hl.view_eq] at h
      rw [hg.view_eq] at h'
      rw [(hl.parts (by simp [h, View.parts])).family?_eq] at hr
      rw [(hg.parts (by simp [h', View.parts])).family?_eq] at hr'
      exact .subrelDependent h h' hr hr' hrest
    | named h h' hlen hv hlen' =>
      rw [hl.view_eq] at h
      rw [hg.view_eq] at h'
      refine .subrelNamed h h' hlen hv hlen' (fun a b hab => ?_) hrest
      exact hunified.resolve_eq (mem_invariantPairs.2 hab) hσ hle

end Monotonicity
