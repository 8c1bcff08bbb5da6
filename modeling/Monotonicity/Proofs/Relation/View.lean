import Monotonicity.Goal.Basic
import Monotonicity.Proofs.Relation.Converse
import Monotonicity.Proofs.Substitution.Acyclic

/-!
# Relations seen through bindings

A search looks at relations and terms through the bindings of the moment. What it sees of a term
whose placeholders are all unbound is the term as it stands (`Leaves.view_eq` and its like), and
what it sees of any term is, up to the values of the parts, what the term's value is as it stands
(`Acyclic.view_resolve`). So what the rules look at can be said without the moment at which they
did.
-/

namespace Monotonicity

namespace Subst

variable {σ τ rest : Subst} {t u core family left right edge : Term} {odd odd' : Bool} {i : Nat}

/-! ## Terms that the bindings leave alone -/

/-- No placeholder of the term is bound. -/
def Leaves (σ : Subst) (t : Term) : Prop := ∀ i ∈ t.vars, σ.get? i = none

theorem Leaves.of_subset (h : σ.Leaves t) (hu : ∀ i ∈ u.vars, i ∈ t.vars) : σ.Leaves u :=
  fun i hi => h i (hu i hi)

theorem leaves_cases {arms : List (Arm Term)} :
    σ.Leaves (.cases t arms) ↔ σ.Leaves t ∧ ∀ arm ∈ arms, σ.Leaves arm.body := by
  simp only [Leaves, Term.mem_vars_cases]
  constructor
  · intro h
    exact ⟨fun i hi => h i (.inl hi), fun arm harm i hi => h i (.inr ⟨arm, harm, hi⟩)⟩
  · rintro ⟨ht, harms⟩ i (hi | ⟨arm, harm, hi⟩)
    · exact ht i hi
    · exact harms arm harm i hi

/-- The values hold no bound placeholder. -/
theorem Acyclic.leaves_value (hσ : σ.Acyclic) (i : Nat) : σ.Leaves (σ.value i) := by
  induction i using hσ.wf.induction with
  | _ i ih =>
    cases hb : σ.get? i with
    | none =>
      rw [value_of_unbound hb]
      simpa [Leaves] using hb
    | some t =>
      intro j hj
      rw [hσ.value_of_bound hb, hσ.resolve_eq_subst, Term.mem_vars_subst] at hj
      obtain ⟨k, hk, hj⟩ := hj
      exact ih k ⟨t, hb, hk⟩ j hj

theorem Acyclic.leaves_resolve (hσ : σ.Acyclic) (t : Term) : σ.Leaves (σ.resolve t) := by
  intro j hj
  rw [hσ.resolve_eq_subst, Term.mem_vars_subst] at hj
  obtain ⟨i, -, hj⟩ := hj
  exact hσ.leaves_value i j hj

namespace Leaves

theorem walkFor_eq (h : σ.Leaves t) (rest : Subst) : σ.walkFor rest t = t := by
  unfold walkFor
  split
  · next i =>
    have hi : σ.get? i = none := h i (by simp)
    simp [hi]
  · rfl

theorem walk_eq (h : σ.Leaves t) : σ.walk t = t := h.walkFor_eq σ

theorem resolveFor_eq (h : σ.Leaves t) (rest : Subst) : σ.resolveFor rest t = t := by
  cases rest with
  | empty => rfl
  | bind rest j u =>
    rw [resolveFor, Term.replace_eq_subst]
    exact (Term.subst_congr fun i hi => by simp [h i hi]).trans (Term.subst_var t)

theorem resolve_eq (h : σ.Leaves t) : σ.resolve t = t := h.resolveFor_eq σ

theorem unflipFor_eq (h : σ.Leaves t) (rest : Subst) (odd : Bool) :
    σ.unflipFor rest odd t = t.unflip odd := by
  unfold unflipFor
  split
  · rfl
  · split
    · next i hu => simp [h i ((Term.mem_vars_unflip hu).1 (by simp)), hu]
    · rfl

theorem parts (h : σ.Leaves t) (hu : u ∈ t.view.parts) : σ.Leaves u :=
  h.of_subset fun _ => Term.vars_of_mem_parts hu

theorem view_eq (h : σ.Leaves t) : σ.view t = t.view := by
  simp [view, Term.view, h.unflipFor_eq, unflipFor]

theorem family?_eq (h : σ.Leaves family) :
    σ.family? family left right edge = Subst.empty.family? family left right edge := by
  have h' : Subst.empty.Leaves family := fun i _ => get?_empty i
  simp only [family?, h.walk_eq, h'.walk_eq]

end Leaves

theorem empty_leaves (t : Term) : Subst.empty.Leaves t := fun i _ => get?_empty i

/-! ## What is seen of a term is its value -/

theorem Acyclic.resolve_app (hσ : σ.Acyclic) (head : String) (args : List Term) :
    σ.resolve (.app head args) = .app head (args.map σ.resolve) := by
  simp [hσ.resolve_eq_subst, Term.subst_app, funext hσ.resolve_eq_subst]

/-- A core behind the bindings: no converse, and no bound placeholder. -/
theorem Acyclic.unflipFor_eq (hσ : σ.Acyclic) (henough : σ.Enough rest t)
    (h : σ.unflipFor rest odd t = (odd', core)) :
    (σ.resolve t).unflip odd = (σ.resolve core).unflip odd' ∧ core.IsCore ∧
      ∀ i, core = .var i → σ.get? i = none := by
  induction rest generalizing t odd with
  | empty =>
    simp only [unflipFor] at h
    refine ⟨?_, Term.isCore_of_unflip h, fun i hi => ?_⟩
    · simp only [hσ.resolve_eq_subst]
      exact Term.unflip_subst _ h
    · exact henough.unbound hσ ((Term.mem_vars_unflip h).1 (by simp [hi]))
  | bind rest j u ih =>
    obtain ⟨o, c, hc⟩ : ∃ o c, t.unflip odd = (o, c) := ⟨_, _, rfl⟩
    have hsub : (σ.resolve t).unflip odd = (σ.resolve c).unflip o := by
      simp only [hσ.resolve_eq_subst]
      exact Term.unflip_subst _ hc
    simp only [unflipFor, hc] at h
    by_cases hv : ∃ i v, c = .var i ∧ σ.get? i = some v
    · obtain ⟨i, v, rfl, hb⟩ := hv
      simp only [hb] at h
      have hi : i ∈ t.vars := (Term.mem_vars_unflip hc).1 (by simp)
      obtain ⟨heq, hcore⟩ := ih (henough.follow hσ hi hb) h
      refine ⟨?_, hcore⟩
      rw [hsub, ← heq, ← hσ.value_of_bound hb]
      rfl
    · have hend : (o, c) = (odd', core) := by
        cases c with
        | var i =>
          cases hb : σ.get? i with
          | none => simpa [hb] using h
          | some v => exact (hv ⟨i, v, rfl, hb⟩).elim
        | app head args => exact h
        | cases s arms => exact h
      cases hend
      refine ⟨hsub, Term.isCore_of_unflip hc, ?_⟩
      rintro i rfl
      exact Option.eq_none_iff_forall_ne_some.2 fun v hb => hv ⟨i, v, rfl, hb⟩

/-- The value of a relation, as it stands, is what is seen of the relation through the bindings. -/
theorem Acyclic.view_resolve (hσ : σ.Acyclic) (t : Term) :
    (σ.resolve t).view = (σ.view t).map σ.resolve := by
  obtain ⟨odd, core, h⟩ : ∃ odd core, σ.unflipFor σ false t = (odd, core) := ⟨_, _, rfl⟩
  obtain ⟨heq, hcore, hvar⟩ := hσ.unflipFor_eq (enough_self σ t) h
  -- an unbound placeholder is its own value, and any other core stays one
  have hstay : (σ.resolve core).IsCore ∧
      View.ofHead (σ.resolve core) = (View.ofHead core).map σ.resolve := by
    by_cases hv : ∃ i, core = .var i
    · obtain ⟨i, rfl⟩ := hv
      rw [show σ.resolve (.var i) = .var i from value_of_unbound (hvar i rfl)]
      exact ⟨hcore, rfl⟩
    · have hne : ∀ i, core ≠ .var i := fun i hi => hv ⟨i, hi⟩
      have hmap : σ.resolve = fun t => t.subst σ.value := funext hσ.resolve_eq_subst
      rw [hmap]
      exact ⟨hcore.subst hne _, Term.ofHead_subst hne _⟩
  rw [Term.view_eq, heq, hstay.1.unflip_eq, view, h]
  cases odd with
  | true => rfl
  | false => exact hstay.2

/-- What was seen of a relation is what it is later, up to the values of the parts. -/
theorem Acyclic.view_later (hσ : σ.Acyclic) (hle : τ ≤ σ) (h : (τ.view t).Solid) :
    (σ.resolve t).view = (τ.view t).map σ.resolve := by
  have hτ := hσ.of_le hle
  have hsolid : (τ.resolve t).view.Solid := by
    rw [hτ.view_resolve]
    cases hv : τ.view t with
    | flip rel =>
      rw [hv] at h
      cases rel with
      | var i => exact (h i rfl).elim
      | app head args => simp [View.map, View.Solid, hτ.resolve_app]
      | cases s arms => simp [View.map, View.Solid, hτ.resolve_eq_subst]
    | placeholder i =>
      rw [hv] at h
      exact h.elim
    | equality | top | bottom | stuck => trivial
    | arrow _ _ | dependent _ _ | named _ _ => trivial
  rw [← hσ.resolve_resolve hle, hσ.resolve_eq_subst, Term.view_subst hsolid, hτ.view_resolve,
    View.map_map]
  congr 1
  funext u
  rw [Function.comp_apply, ← hσ.resolve_eq_subst, hσ.resolve_resolve hle]

/-- What is seen behind an odd number of converses is a core: no converse, and no bound
placeholder. -/
theorem Acyclic.of_view_flip (hσ : σ.Acyclic) (h : σ.view t = .flip core) :
    (σ.resolve t).unflip false = (σ.resolve core).unflip true ∧ core.IsCore ∧
      ∀ i, core = .var i → σ.get? i = none := by
  obtain ⟨odd, c, hu⟩ : ∃ odd core, σ.unflipFor σ false t = (odd, core) := ⟨_, _, rfl⟩
  obtain ⟨heq, hcore, hvar⟩ := hσ.unflipFor_eq (enough_self σ t) hu
  rw [view, hu] at h
  cases odd with
  | true =>
    obtain rfl : c = core := by simpa using h
    exact ⟨heq, hcore, hvar⟩
  | false => exact (hcore.ofHead_ne_flip core h).elim

/-- What was seen behind an odd number of converses is there later, if it is no converse itself
then. -/
theorem Acyclic.view_flip_later (hσ : σ.Acyclic) (hle : τ ≤ σ) (h : τ.view t = .flip core)
    (hcore : (σ.resolve core).IsCore) : (σ.resolve t).view = .flip (σ.resolve core) := by
  obtain ⟨o, c, hc⟩ : ∃ o c, (τ.resolve core).unflip true = (o, c) := ⟨_, _, rfl⟩
  have ht := ((hσ.of_le hle).of_view_flip h).1.trans hc
  have heq := (Term.unflip_subst σ.value ht).trans (Term.unflip_subst σ.value hc).symm
  rw [← hσ.resolve_eq_subst, ← hσ.resolve_eq_subst, hσ.resolve_resolve hle,
    hσ.resolve_resolve hle, hcore.unflip_eq] at heq
  rw [Term.view_of_unflip heq]
  rfl

/-- The relation of a family at two indices is the same later, up to values. -/
theorem Acyclic.family?_later (hσ : σ.Acyclic) (hle : τ ≤ σ)
    (h : τ.family? family left right edge = some t) :
    Subst.empty.family? (σ.resolve family) (σ.resolve left) (σ.resolve right) (σ.resolve edge) =
      some (σ.resolve t) := by
  have hwalk : σ.resolve family = σ.resolve (τ.walk family) := (hσ.resolve_walk hle family).symm
  rw [hwalk, family?, (empty_leaves _).walk_eq]
  unfold family? at h
  cases hw : τ.walk family with
  | var i => simp [hw, Term.extend?] at h
  | cases s arms => simp [hw, Term.extend?] at h
  | app head args =>
    rw [hw] at h
    rw [hσ.resolve_app]
    rcases args with _ | ⟨rel, _ | ⟨b, rest⟩⟩
    · cases h
      simp [Term.extend?, hσ.resolve_app]
    · dsimp only at h
      split at h
      · next hhead =>
        cases h
        simp [hhead]
      · next hhead =>
        cases h
        simp [hhead, hσ.resolve_app]
    · cases h
      simp [Term.extend?, hσ.resolve_app]

end Subst

namespace Goal

variable {σ : Subst} {goal : Goal}

/-- No placeholder of the goal is bound. -/
def Left (σ : Subst) (goal : Goal) : Prop := ∀ t ∈ goal.terms, σ.Leaves t

@[simp] theorem left_related {rel left right : Term} :
    (Goal.related rel left right).Left σ ↔ σ.Leaves rel ∧ σ.Leaves left ∧ σ.Leaves right := by
  simp [Left, terms]

@[simp] theorem left_subrel {lesser greater : Term} :
    (Goal.subrel lesser greater).Left σ ↔ σ.Leaves lesser ∧ σ.Leaves greater := by
  simp [Left, terms]

theorem left_resolve (hσ : σ.Acyclic) (goal : Goal) : (goal.resolve σ).Left σ := by
  cases goal <;> simp [Left, terms, resolve, map, hσ.leaves_resolve]

/-- Whether a goal fits a pattern can be seen on the goal as it stands. -/
theorem Left.fits_eq (h : goal.Left σ) (pattern : Pattern) :
    pattern.fits σ goal = pattern.fits .empty goal := by
  cases goal with
  | subrel lesser greater => cases pattern <;> rfl
  | related rel left right =>
    obtain ⟨hrel, hl, hr⟩ := left_related.1 h
    cases pattern with
    | related shape => simp only [Pattern.fits, hrel.view_eq, Term.view]
    | bothCases =>
      simp only [Pattern.fits, hl.walk_eq, hr.walk_eq, (Subst.empty_leaves _).walk_eq]
    | any => rfl
    | anyRelated => rfl
    | subrel => rfl

end Goal

end Monotonicity
