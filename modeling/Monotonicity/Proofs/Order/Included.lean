import Monotonicity.Proofs.Calculus.Basic
import Monotonicity.Proofs.Semantics.Valuation

/-!
# Inclusion without a search

For ground relations the rules for inclusions can be told without bindings: a relation is included
in another if they look the same, if one of them is an extreme, if a registered inclusion leads from
the lesser one to one that is included, or if both are made by the same combinator and the parts are
included as it asks. `Included` says so with a bound on the height, and what is seen of the two
relations is all that matters, but for registered inclusions, whose lesser side is taken as it
stands. So two converses cannot be told from none on the greater side (`Included.congr_greater`),
and on the lesser side neither if nothing is registered there (`Included.congr_lesser`).
-/

namespace Monotonicity

/-- If all elements of a list have bounds for a property, then they have a common one. -/
theorem exists_bound {α : Type} {P : Nat → α → Prop} (hmono : ∀ a n m, n ≤ m → P n a → P m a)
    {as : List α} (h : ∀ a ∈ as, ∃ n, P n a) : ∃ n, ∀ a ∈ as, P n a := by
  induction as with
  | nil => exact ⟨0, by simp⟩
  | cons a as ih =>
    rw [List.forall_mem_cons] at h
    obtain ⟨⟨n, hn⟩, hrest⟩ := h
    obtain ⟨m, hm⟩ := ih hrest
    refine ⟨max n m, List.forall_mem_cons.2 ⟨hmono a _ _ (le_max_left ..) hn, fun b hb => ?_⟩⟩
    exact hmono b _ _ (le_max_right ..) (hm b hb)

/-- The first relation is included in the second, by a derivation of at most this height. -/
inductive Included (r : Registry) : Nat → Term → Term → Prop
  | same {n lesser greater} (h : lesser.view = greater.view) : Included r n lesser greater
  | extreme {n lesser greater} (h : greater.view = .top ∨ lesser.view = .bottom) :
      Included r n lesser greater
  | through {n greater} {f : Inclusion} (hf : f ∈ r.inclusions)
      (h : Included r n f.greater greater) : Included r (n + 1) f.lesser greater
  | arrow {n lesser greater a b a' b'} (hl : lesser.view = .arrow a b)
      (hg : greater.view = .arrow a' b') (hdom : Included r n a' a) (hcod : Included r n b b') :
      Included r (n + 1) lesser greater
  | flip {n lesser greater a b} (hl : lesser.view = .flip a) (hg : greater.view = .flip b)
      (h : Included r n a b) : Included r (n + 1) lesser greater
  | named {n lesser greater head xs ys variances} (hl : lesser.view = .named head xs)
      (hg : greater.view = .named head ys) (hlen : xs.length = ys.length)
      (hv : r.variances.get? head = some variances) (hlen' : variances.length = xs.length)
      (hagree : ∀ a b, (a, b, Variance.invariant) ∈ xs.zip (ys.zip variances) → a = b)
      (hargs : ∀ a b, .subrel a b ∈ argumentGoals (xs.zip (ys.zip variances)) → Included r n a b) :
      Included r (n + 1) lesser greater

variable {r : Registry} {n m : Nat} {lesser greater other : Term}

namespace Included

theorem mono (h : Included r n lesser greater) (hm : n ≤ m) : Included r m lesser greater := by
  induction h generalizing m with
  | same h => exact .same h
  | extreme h => exact .extreme h
  | through hf _ ih =>
    obtain ⟨m, rfl⟩ := Nat.exists_eq_add_of_lt hm
    exact .through hf (ih (by omega))
  | arrow hl hg _ _ ihdom ihcod =>
    obtain ⟨m, rfl⟩ := Nat.exists_eq_add_of_lt hm
    exact .arrow hl hg (ihdom (by omega)) (ihcod (by omega))
  | flip hl hg _ ih =>
    obtain ⟨m, rfl⟩ := Nat.exists_eq_add_of_lt hm
    exact .flip hl hg (ih (by omega))
  | named hl hg hlen hv hlen' hagree _ ih =>
    obtain ⟨m, rfl⟩ := Nat.exists_eq_add_of_lt hm
    exact .named hl hg hlen hv hlen' hagree fun a b hab => ih a b hab (by omega)

/-- Of the greater relation it only matters what is seen. -/
theorem congr_greater (h : Included r n lesser greater) (hview : greater.view = other.view) :
    Included r n lesser other := by
  induction h with
  | same h => exact .same (h.trans hview)
  | extreme h => exact .extreme (by rwa [← hview])
  | through hf _ ih => exact .through hf (ih hview)
  | arrow hl hg hdom hcod => exact .arrow hl (hview ▸ hg) hdom hcod
  | flip hl hg h => exact .flip hl (hview ▸ hg) h
  | named hl hg hlen hv hlen' hagree hargs =>
    exact .named hl (hview ▸ hg) hlen hv hlen' hagree hargs

/-- Of the lesser relation it only matters what is seen, unless it is registered as one. -/
theorem congr_lesser (h : Included r n lesser greater)
    (hfree : ∀ f ∈ r.inclusions, f.lesser ≠ lesser) (hview : lesser.view = other.view) :
    Included r n other greater := by
  cases h with
  | same h => exact .same (hview.symm.trans h)
  | extreme h => exact .extreme (by rwa [← hview])
  | through hf h => exact (hfree _ hf rfl).elim
  | arrow hl hg hdom hcod => exact .arrow (hview ▸ hl) hg hdom hcod
  | flip hl hg h => exact .flip (hview ▸ hl) hg h
  | named hl hg hlen hv hlen' hagree hargs =>
    exact .named (hview ▸ hl) hg hlen hv hlen' hagree hargs

/-- The arguments of a combinator have derivations of a common height, each having one. -/
theorem of_named {head : String} {xs ys : List Term} {variances : List Variance}
    (hl : lesser.view = .named head xs) (hg : greater.view = .named head ys)
    (hlen : xs.length = ys.length) (hv : r.variances.get? head = some variances)
    (hlen' : variances.length = xs.length)
    (hagree : ∀ a b, (a, b, Variance.invariant) ∈ xs.zip (ys.zip variances) → a = b)
    (hargs : ∀ a b, .subrel a b ∈ argumentGoals (xs.zip (ys.zip variances)) →
      ∃ n, Included r n a b) : ∃ n, Included r n lesser greater := by
  have heach : ∀ g ∈ argumentGoals (xs.zip (ys.zip variances)),
      ∃ n, ∀ a b, g = .subrel a b → Included r n a b := by
    intro g hmem
    cases g with
    | related rel left right => exact ⟨0, fun a b h => by cases h⟩
    | subrel a b =>
      obtain ⟨n, hn⟩ := hargs a b hmem
      exact ⟨n, fun a' b' h => by cases h; exact hn⟩
  obtain ⟨n, hn⟩ := exists_bound (fun g n m hm h a b hg => (h a b hg).mono hm) heach
  exact ⟨n + 1, .named hl hg hlen hv hlen' hagree fun a b hab => hn _ hab a b rfl⟩

end Included

/-! ## Ground terms -/

namespace Term

variable {t u : Term}

/-- There is nothing in a ground term that bindings could change. -/
theorem leaves_of_ground (h : t.ground = true) (σ : Subst) : σ.Leaves t := by
  rw [ground_iff] at h
  simp [Subst.Leaves, h]

theorem rename_of_ground (h : t.ground = true) (offset : Nat) : t.rename offset = t := by
  rw [rename_eq_subst, subst_of_ground _ t h]

theorem ground_of_mem_view (h : t.ground = true) (hu : u ∈ t.view.parts) : u.ground = true := by
  rw [← subst_var t] at h
  simpa only [subst_var] using ground_of_mem_parts h hu

/-- Two converses are not seen. -/
theorem view_flip_flip (t : Term) : t.flip.flip.view = t.view := by
  rw [view_eq, view_eq, unflip_flip, unflip_flip, Bool.not_not]

theorem ground_flip (h : t.ground = true) : t.flip.ground = true := by
  simpa [flip] using h

theorem PlainGround.flip (h : t.PlainGround) : t.flip.PlainGround where
  ground := ground_flip h.ground
  plain := by simpa [Term.flip, Plain, PlainHead, Reserved.flip, Reserved.dependent] using h.plain

end Term

/-- The goals for the arguments of a combinator are between arguments of its two uses. -/
theorem exists_of_mem_argumentGoals {arguments : List (Term × Term × Variance)} {goal : Goal}
    (h : goal ∈ argumentGoals arguments) :
    ∃ a b v, (a, b, v) ∈ arguments ∧ (goal = .subrel a b ∨ goal = .subrel b a) := by
  fun_induction argumentGoals arguments with
  | case1 => cases h
  | case2 a b rest ih =>
    rcases List.mem_cons.1 h with rfl | h
    · exact ⟨a, b, _, List.mem_cons_self, .inl rfl⟩
    · obtain ⟨a, b, v, hmem, hgoal⟩ := ih h
      exact ⟨a, b, v, List.mem_cons_of_mem _ hmem, hgoal⟩
  | case3 a b rest ih =>
    rcases List.mem_cons.1 h with rfl | h
    · exact ⟨a, b, _, List.mem_cons_self, .inr rfl⟩
    · obtain ⟨a, b, v, hmem, hgoal⟩ := ih h
      exact ⟨a, b, v, List.mem_cons_of_mem _ hmem, hgoal⟩
  | case4 a b rest ih =>
    obtain ⟨a, b, v, hmem, hgoal⟩ := ih h
    exact ⟨a, b, v, List.mem_cons_of_mem _ hmem, hgoal⟩

/-- A ground term is unified with itself at once. -/
theorem Subst.unify_self {t : Term} (h : t.ground = true) (σ : Subst) : σ.unify t t = some σ := by
  have hwalk : σ.walk t = t := (Term.leaves_of_ground h σ).walk_eq
  have hdescend : ∀ follow, Subst.descend follow t t σ = some σ := by
    intro follow
    cases t with
    | var i => simp [Term.ground] at h
    | app head args => simp [Subst.descend, hwalk]
    | cases s arms => simp [Subst.descend, hwalk]
  unfold Subst.unify
  cases Budget.ofTerms (.ofSubst σ) [t, t] with
  | spent => exact hdescend _
  | more rest => exact hdescend _

end Monotonicity
