import Monotonicity.Proofs.Relation.View

/-!
# Traversals end

`walk`, `resolve`, `occurs` and `view` count the trail down while they follow bindings. Without the
count each is a recursion of its own: `walk` goes on from the term that a placeholder is bound to,
`resolve` and `occurs` go on to the children of the term that they walked to, and `view` goes on
behind two converses. These recursions need not end, and if they do not, many functions satisfy
them.

For an acyclic substitution they end, since the value of a term is larger than those of the terms
that its traversal goes on to. Each recursion then has one solution, and that is the function that
counts: `Acyclic.traversable`.
-/

namespace Monotonicity

open Relation

/-! ## Children -/

namespace Term

variable {t u : Term} {i : Nat} {f : Nat → Term}

/-- What is put in for a placeholder is no larger than what comes out. -/
theorem sizeOf_le_subst (hi : i ∈ t.vars) : sizeOf (f i) ≤ sizeOf (t.subst f) := by
  have hchild : ∀ {t : Term}, (∀ i, t ≠ .var i) → (∀ u ∈ t.children, i ∈ u.vars →
      sizeOf (f i) ≤ sizeOf (u.subst f)) → i ∈ t.vars → sizeOf (f i) ≤ sizeOf (t.subst f) := by
    intro t ht ih hi
    obtain ⟨u, hu, hiu⟩ := (mem_vars_iff_children ht).1 hi
    have hmem : u.subst f ∈ (t.subst f).children := by
      rw [children_subst ht]
      exact List.mem_map_of_mem hu
    exact (ih u hu hiu).trans (sizeOf_lt_of_mem_children hmem).le
  induction t using induction with
  | var j =>
    obtain rfl : i = j := by simpa using hi
    exact le_rfl
  | app head args ih => exact hchild (by simp) ih hi
  | cases s arms ihs ih =>
    refine hchild (by simp) (fun u hu => ?_) hi
    simp only [children, List.mem_cons, List.mem_map] at hu
    rcases hu with rfl | ⟨arm, harm, rfl⟩
    · exact ihs
    · exact ih arm harm

/-- Inside of a term, what is put in for a placeholder is smaller than what comes out. -/
theorem sizeOf_lt_subst (ht : ∀ i, t ≠ .var i) (hi : i ∈ t.vars) :
    sizeOf (f i) < sizeOf (t.subst f) := by
  obtain ⟨u, hu, hiu⟩ := (mem_vars_iff_children ht).1 hi
  have hmem : u.subst f ∈ (t.subst f).children := by
    rw [children_subst ht]
    exact List.mem_map_of_mem hu
  exact (sizeOf_le_subst hiu).trans_lt (sizeOf_lt_of_mem_children hmem)

/-- What a converse is the converse of. -/
def asFlip? : Term → Option Term
  | .app head [rel] => if head = Reserved.flip then some rel else none
  | _ => none

theorem asFlip?_eq_some : t.asFlip? = some u ↔ t = u.flip := by
  unfold asFlip?
  split
  · next head rel =>
    by_cases h : head = Reserved.flip
    · simp [h, flip]
    · simp [h, flip]
  · next hne =>
    simp only [reduceCtorEq, false_iff]
    rintro rfl
    exact hne _ _ rfl

theorem asFlip?_eq_none : t.asFlip? = none ↔ t.IsCore := by
  simp [Option.eq_none_iff_forall_ne_some, asFlip?_eq_some, IsCore]

theorem mem_children_flip : u ∈ u.flip.children := by
  simp [flip, children]

end Term

namespace Subst

variable {σ rest rest' : Subst} {t u : Term} {i : Nat} {odd : Bool}

/-! ## What the traversals go on to -/

/-- The term is bound to the placeholder at hand. -/
def Follow (σ : Subst) (u t : Term) : Prop := ∃ i, t = .var i ∧ σ.get? i = some u

/-- The term is right below the root of what the term at hand is bound to. -/
def Visit (σ : Subst) (u t : Term) : Prop := u ∈ (σ.walk t).children

/-- The term is behind two converses. -/
def Peel (σ : Subst) (u t : Term) : Prop :=
  ∃ inner, (σ.walk t).asFlip? = some inner ∧ (σ.walk inner).asFlip? = some u

theorem Acyclic.wf_follow (hσ : σ.Acyclic) : WellFounded σ.Follow := by
  have hstop : ∀ t : Term, (∀ i, t ≠ .var i) → Acc σ.Follow t := fun t ht =>
    ⟨t, fun u ⟨i, hi, _⟩ => (ht i hi).elim⟩
  have hvar : ∀ i, Acc σ.Follow (.var i) := by
    intro i
    induction i using hσ.wf.induction with
    | h i ih =>
      refine ⟨_, fun u ⟨j, hj, hu⟩ => ?_⟩
      obtain rfl : i = j := by simpa using hj
      cases u with
      | var k => exact ih k ⟨_, hu, by simp⟩
      | app head args => exact hstop _ (by simp)
      | cases s arms => exact hstop _ (by simp)
  refine ⟨fun t => ?_⟩
  cases t with
  | var i => exact hvar i
  | app head args => exact hstop _ (by simp)
  | cases s arms => exact hstop _ (by simp)

theorem Acyclic.resolve_cases (hσ : σ.Acyclic) (s : Term) (arms : List (Arm Term)) :
    σ.resolve (.cases s arms) =
      .cases (σ.resolve s) (arms.map fun arm => { arm with body := σ.resolve arm.body }) := by
  simp [hσ.resolve_eq_subst]

theorem Acyclic.children_resolve (hσ : σ.Acyclic) (t : Term) :
    (σ.resolve t).children = (σ.walk t).children.map σ.resolve := by
  rw [← hσ.resolve_walk (le_refl σ) t]
  cases h : σ.walk t with
  | var i =>
    have hvalue : σ.resolve (.var i) = .var i := value_of_unbound (hσ.walk_eq_var h)
    rw [hvalue]
    rfl
  | app head args => rw [hσ.resolve_app]; rfl
  | cases s arms =>
    rw [hσ.resolve_cases]
    simp [Term.children, Function.comp_def]

theorem Acyclic.sizeOf_resolve_lt (hσ : σ.Acyclic) (h : σ.Visit u t) :
    sizeOf (σ.resolve u) < sizeOf (σ.resolve t) := by
  apply Term.sizeOf_lt_of_mem_children
  rw [hσ.children_resolve]
  exact List.mem_map_of_mem h

theorem Acyclic.wf_visit (hσ : σ.Acyclic) : WellFounded σ.Visit :=
  Subrelation.wf hσ.sizeOf_resolve_lt (InvImage.wf (fun t => sizeOf (σ.resolve t)) Nat.lt_wfRel.wf)

/-- Behind two converses is behind one, twice. -/
theorem Peel.visit (h : σ.Peel u t) : TransGen σ.Visit u t := by
  obtain ⟨inner, hinner, hu⟩ := h
  rw [Term.asFlip?_eq_some] at hinner hu
  have hfirst : σ.Visit inner t := by
    rw [Visit, hinner]
    exact Term.mem_children_flip
  have hsecond : σ.Visit u inner := by
    rw [Visit, hu]
    exact Term.mem_children_flip
  exact .tail (.single hsecond) hfirst

theorem Acyclic.wf_peel (hσ : σ.Acyclic) : WellFounded σ.Peel :=
  Subrelation.wf Peel.visit hσ.wf_visit.transGen

/-! ## One unfolding of each traversal -/

/-- Follows one binding at the root and goes on by `next`. -/
def walkOnce (σ : Subst) (next : Term → Term) : Term → Term
  | .var i =>
    match σ.get? i with
    | some t => next t
    | none => .var i
  | t => t

/-- Replaces the bound placeholders of the children by `next`. -/
def resolveOnce (σ : Subst) (next : Term → Term) (t : Term) : Term :=
  match σ.walk t with
  | .var i => .var i
  | .app head args => .app head (args.map next)
  | .cases s arms => .cases (next s) (arms.map fun arm => { arm with body := next arm.body })

/-- Looks for an unbound placeholder at the root, and below it by `next`. -/
def occursOnce (σ : Subst) (i : Nat) (next : Term → Bool) (t : Term) : Bool :=
  match σ.walk t with
  | .var j => j == i
  | t => t.children.any next

/-- Looks at a relation's head, or by `next` at what is behind two converses. -/
def viewOnce (σ : Subst) (next : Term → View) (t : Term) : View :=
  match (σ.walk t).asFlip? with
  | none => .ofHead (σ.walk t)
  | some inner =>
    match (σ.walk inner).asFlip? with
    | none => .flip (σ.walk inner)
    | some u => next u

/-! ## The functions that count satisfy the recursions -/

theorem Acyclic.walkFor_eq (hσ : σ.Acyclic) (h : σ.Enough rest t) (h' : σ.Enough rest' t) :
    σ.walkFor rest t = σ.walkFor rest' t := by
  have hstop {rest t} (h : σ.Enough .empty t) : σ.walkFor rest t = t := by
    cases t with
    | app head args => cases rest <;> rfl
    | cases s arms => cases rest <;> rfl
    | var i =>
      have hi := h.unbound hσ (i := i) (by simp)
      cases rest <;> simp [walkFor, hi]
  induction rest generalizing t rest' with
  | empty => rw [hstop h, hstop h]
  | bind rest j u ih =>
    cases rest' with
    | empty => rw [hstop h', hstop h']
    | bind rest' j' u' =>
      cases t with
      | app head args => rfl
      | cases s arms => rfl
      | var i =>
        simp only [walkFor]
        cases hb : σ.get? i with
        | none => rfl
        | some w => exact ih (h.follow hσ (by simp) hb) (h'.follow hσ (by simp) hb)

theorem Acyclic.walk_of_bound (hσ : σ.Acyclic) (hb : σ.get? i = some t) :
    σ.walk (.var i) = σ.walk t := by
  cases he : σ with
  | empty => simp [he] at hb
  | bind rest j u =>
    rw [← he, walk, walk, ← hσ.walkFor_eq (hσ.enough_of_bound he hb) (enough_self σ t)]
    conv_lhs => rw [he]
    simp [walkFor, ← he, hb]

theorem walk_of_unbound (h : σ.get? i = none) : σ.walk (.var i) = .var i := by
  cases hσ : σ with
  | empty => rfl
  | bind rest j u => simp [walk, walkFor, ← hσ, h]

theorem walk_of_ne_var (ht : ∀ i, t ≠ .var i) : σ.walk t = t := by
  cases t with
  | var i => exact (ht i rfl).elim
  | app head args => cases σ <;> rfl
  | cases s arms => cases σ <;> rfl

theorem Acyclic.walk_eq_once (hσ : σ.Acyclic) : σ.walk = σ.walkOnce σ.walk := by
  funext t
  cases t with
  | app head args => exact walk_of_ne_var (by simp)
  | cases s arms => exact walk_of_ne_var (by simp)
  | var i =>
    simp only [walkOnce]
    split
    · next t hb => exact hσ.walk_of_bound hb
    · next hb => exact walk_of_unbound hb

theorem Acyclic.resolve_eq_once (hσ : σ.Acyclic) : σ.resolve = σ.resolveOnce σ.resolve := by
  funext t
  rw [resolveOnce, ← hσ.resolve_walk (le_refl σ) t]
  cases h : σ.walk t with
  | var i => exact value_of_unbound (hσ.walk_eq_var h)
  | app head args => exact hσ.resolve_app head args
  | cases s arms => exact hσ.resolve_cases s arms

/-- The search for a placeholder looks at those that are left when the bindings are followed. -/
theorem reachesFor_iff {p : Nat → Bool} :
    σ.reachesFor p rest t = true ↔
      ∃ i ∈ (σ.resolveFor rest t).vars, σ.get? i = none ∧ p i = true := by
  induction rest generalizing t with
  | empty =>
    simp only [reachesFor, resolveFor, Term.any_eq_any_vars, List.any_eq_true]
    simp [isBound]
  | bind rest j u ih =>
    simp only [reachesFor, resolveFor, Term.replace_eq_subst, Term.any_eq_any_vars,
      List.any_eq_true, Term.mem_vars_subst]
    constructor
    · rintro ⟨k, hk, hp⟩
      split at hp
      · next v hv =>
        obtain ⟨i, hi, hnone, hpi⟩ := ih.1 hp
        exact ⟨i, ⟨k, hk, by simpa [hv] using hi⟩, hnone, hpi⟩
      · next hv => exact ⟨k, ⟨k, hk, by simp [hv]⟩, hv, hp⟩
    · rintro ⟨i, ⟨k, hk, hi⟩, hnone, hpi⟩
      refine ⟨k, hk, ?_⟩
      cases hv : σ.get? k with
      | some v => exact ih.2 ⟨i, by simpa [hv] using hi, hnone, hpi⟩
      | none =>
        obtain rfl : i = k := by simpa [hv] using hi
        exact hpi

/-- A placeholder is found to occur in a term if it is unbound and left in the term's value. -/
theorem occurs_iff : σ.occurs i t = true ↔ σ.get? i = none ∧ i ∈ (σ.resolve t).vars := by
  rw [occurs, reachesFor_iff]
  constructor
  · rintro ⟨j, hj, hnone, hji⟩
    obtain rfl : j = i := by simpa using hji
    exact ⟨hnone, hj⟩
  · rintro ⟨hnone, hi⟩
    exact ⟨i, hi, hnone, by simp⟩

theorem Acyclic.occurs_eq_once (hσ : σ.Acyclic) (i : Nat) :
    σ.occurs i = σ.occursOnce i (σ.occurs i) := by
  funext t
  have hwalk : σ.resolve (σ.walk t) = σ.resolve t := hσ.resolve_walk (le_refl σ) t
  have hchildren := hσ.children_resolve t
  rw [Bool.eq_iff_iff, occurs_iff, occursOnce]
  split
  · next j hj =>
    have hj' := hσ.walk_eq_var hj
    have hvalue : σ.resolve t = .var j := by rw [← hwalk, hj]; exact value_of_unbound hj'
    simp only [hvalue, Term.mem_vars_var, beq_iff_eq]
    constructor
    · rintro ⟨-, rfl⟩
      rfl
    · rintro rfl
      exact ⟨hj', rfl⟩
  · next hne =>
    have hvar : ∀ j, σ.resolve t ≠ .var j := by
      intro j
      rw [← hwalk]
      cases h : σ.walk t with
      | var k => exact (hne k h).elim
      | app head args => simp [hσ.resolve_app]
      | cases s arms => simp [hσ.resolve_cases]
    rw [Term.mem_vars_iff_children hvar, hchildren]
    simp only [List.mem_map, exists_exists_and_eq_and, List.any_eq_true, occurs_iff]
    constructor
    · rintro ⟨hi, u, hu, hiu⟩
      exact ⟨u, hu, hi, hiu⟩
    · rintro ⟨u, hu, hi, hiu⟩
      exact ⟨hi, u, hu, hiu⟩

/-! ### Converses -/

theorem unflipFor_flip : σ.unflipFor rest odd t.flip = σ.unflipFor rest (!odd) t := by
  cases rest with
  | empty => exact Term.unflip_flip odd t
  | bind rest j u => simp only [unflipFor, Term.unflip_flip]

/-- Any two amounts of room that suffice give the same result. -/
theorem Acyclic.unflipFor_congr (hσ : σ.Acyclic) (h : σ.Enough rest t) (h' : σ.Enough rest' t) :
    σ.unflipFor rest odd t = σ.unflipFor rest' odd t := by
  have hstop {rest odd t} (h : σ.Enough .empty t) : σ.unflipFor rest odd t = t.unflip odd := by
    have hleaves : σ.Leaves t := fun i hi => h.unbound hσ hi
    exact hleaves.unflipFor_eq rest odd
  induction rest generalizing t odd rest' with
  | empty => rw [hstop h, hstop h]
  | bind rest j u ih =>
    cases rest' with
    | empty => rw [hstop h', hstop h']
    | bind rest' j' u' =>
      simp only [unflipFor]
      split
      · next o i hc =>
        have hi : i ∈ t.vars := (Term.mem_vars_unflip hc).1 (by simp)
        cases hb : σ.get? i with
        | none => rfl
        | some w => exact ih (h.follow hσ hi hb) (h'.follow hσ hi hb)
      · rfl

/-- Converses are taken off behind a binding as they are in front of it. -/
theorem Acyclic.unflipFor_of_bound (hσ : σ.Acyclic) (hb : σ.get? i = some t) :
    σ.unflipFor σ odd (.var i) = σ.unflipFor σ odd t := by
  cases he : σ with
  | empty => simp [he] at hb
  | bind rest j u =>
    rw [← he, ← hσ.unflipFor_congr (hσ.enough_of_bound he hb) (enough_self σ t)]
    conv_lhs => rw [he]
    simp [unflipFor, Term.unflip, ← he, hb]

theorem Acyclic.unflipFor_walk (hσ : σ.Acyclic) :
    σ.unflipFor σ odd (σ.walk t) = σ.unflipFor σ odd t := by
  induction t using hσ.wf_follow.induction with
  | h t ih =>
    cases t with
    | app head args => rw [walk_of_ne_var (by simp)]
    | cases s arms => rw [walk_of_ne_var (by simp)]
    | var i =>
      cases hb : σ.get? i with
      | none => rw [walk_of_unbound hb]
      | some u => rw [hσ.walk_of_bound hb, ih u ⟨i, rfl, hb⟩, hσ.unflipFor_of_bound hb]

/-- A core that was walked to is not followed any further. -/
theorem Acyclic.unflipFor_core (hσ : σ.Acyclic) (hu : σ.walk t = u) (hcore : u.IsCore) :
    σ.unflipFor σ odd t = (odd, u) := by
  rw [← hσ.unflipFor_walk, hu]
  have hunflip := hcore.unflip_eq odd
  cases he : σ with
  | empty => simpa [unflipFor] using hunflip
  | bind rest j v =>
    simp only [unflipFor, hunflip]
    cases u with
    | app head args => rfl
    | cases s arms => rfl
    | var i => simp [← he, hσ.walk_eq_var hu]

theorem Acyclic.view_eq_once (hσ : σ.Acyclic) : σ.view = σ.viewOnce σ.view := by
  funext t
  rw [viewOnce, view]
  cases hfirst : (σ.walk t).asFlip? with
  | none => simp [hσ.unflipFor_core rfl (Term.asFlip?_eq_none.1 hfirst)]
  | some inner =>
    have hinner : σ.unflipFor σ false t = σ.unflipFor σ true inner := by
      rw [← hσ.unflipFor_walk, Term.asFlip?_eq_some.1 hfirst, unflipFor_flip, Bool.not_false]
    rw [hinner]
    cases hsecond : (σ.walk inner).asFlip? with
    | none => simp [hsecond, hσ.unflipFor_core rfl (Term.asFlip?_eq_none.1 hsecond)]
    | some u =>
      have hu : σ.unflipFor σ true inner = σ.unflipFor σ false u := by
        rw [← hσ.unflipFor_walk, Term.asFlip?_eq_some.1 hsecond, unflipFor_flip, Bool.not_true]
      simp only [hsecond, hu]
      rfl

/-! ## The recursions have one solution -/

/-- A recursion that goes on to smaller arguments only has at most one solution. -/
theorem eq_of_once {α β : Type} {r : α → α → Prop} (hr : WellFounded r)
    {once : (α → β) → α → β}
    (honce : ∀ f g a, (∀ b, r b a → f b = g b) → once f a = once g a) {f g : α → β}
    (hf : f = once f) (hg : g = once g) : f = g := by
  funext a
  induction a using hr.induction with
  | h a ih => rw [hf, hg, honce f g a ih]

/-- The traversals end, and none of them is held up by the count. -/
structure Traversable (σ : Subst) : Prop where
  follow : WellFounded σ.Follow
  visit : WellFounded σ.Visit
  peel : WellFounded σ.Peel
  walk : ∀ f, f = σ.walkOnce f ↔ f = σ.walk
  resolve : ∀ f, f = σ.resolveOnce f ↔ f = σ.resolve
  occurs : ∀ i f, f = σ.occursOnce i f ↔ f = σ.occurs i
  view : ∀ f, f = σ.viewOnce f ↔ f = σ.view

theorem Acyclic.traversable (hσ : σ.Acyclic) : σ.Traversable where
  follow := hσ.wf_follow
  visit := hσ.wf_visit
  peel := hσ.wf_peel
  walk f := by
    refine ⟨fun hf => eq_of_once hσ.wf_follow ?_ hf hσ.walk_eq_once, fun hf => ?_⟩
    · intro f g t h
      cases t with
      | app head args => rfl
      | cases s arms => rfl
      | var i =>
        simp only [walkOnce]
        split
        · next u hu => exact h u ⟨i, rfl, hu⟩
        · rfl
    · rw [hf, ← hσ.walk_eq_once]
  resolve f := by
    refine ⟨fun hf => eq_of_once hσ.wf_visit ?_ hf hσ.resolve_eq_once, fun hf => ?_⟩
    · intro f g t h
      unfold Visit at h
      unfold resolveOnce
      cases ht : σ.walk t with
      | var i => rfl
      | app head args =>
        rw [ht] at h
        have hargs : args.map f = args.map g := List.map_congr_left h
        simp only [hargs]
      | cases s arms =>
        simp only [ht, Term.children, List.mem_cons, List.mem_map, forall_eq_or_imp,
          forall_exists_index, and_imp, forall_apply_eq_imp_iff₂] at h
        have harms : (arms.map fun arm => { arm with body := f arm.body }) =
            arms.map fun arm => { arm with body := g arm.body } :=
          List.map_congr_left fun arm harm => by rw [h.2 arm harm]
        simp only [h.1, harms]
    · rw [hf, ← hσ.resolve_eq_once]
  occurs i f := by
    refine ⟨fun hf => eq_of_once hσ.wf_visit ?_ hf (hσ.occurs_eq_once i), fun hf => ?_⟩
    · intro f g t h
      unfold occursOnce
      split
      · rfl
      · rw [Bool.eq_iff_iff]
        simp only [List.any_eq_true]
        exact exists_congr fun u => and_congr_right fun hu => by rw [h u hu]
    · rw [hf, ← hσ.occurs_eq_once]
  view f := by
    refine ⟨fun hf => eq_of_once hσ.wf_peel ?_ hf hσ.view_eq_once, fun hf => ?_⟩
    · intro f g t h
      unfold viewOnce
      split
      · rfl
      · next inner hinner =>
        split
        · rfl
        · next u hu => exact h u ⟨inner, hinner, hu⟩
    · rw [hf, ← hσ.view_eq_once]

end Subst

end Monotonicity
