import Monotonicity.Proofs.Term.Placeholders

/-!
# Stable classes of terms

A class of terms is stable if it has the subterms of its members, and if replacing placeholders of a
member by members gives a member. One such class is that of the terms over a set of placeholders:
those in which no other placeholder occurs.
-/

namespace Monotonicity

namespace Term

/-- A class of terms that has the subterms of its members, and members with placeholders replaced by
members. -/
structure Stable (Q : Term → Prop) : Prop where
  args : ∀ {head args}, Q (.app head args) → ∀ t ∈ args, Q t
  scrutinee : ∀ {s arms}, Q (.cases s arms) → Q s
  bodies : ∀ {s arms}, Q (.cases s arms) → ∀ arm ∈ arms, Q arm.body
  subst : ∀ {f t}, Q t → (∀ i ∈ t.vars, Q (f i)) → Q (t.subst f)

theorem Stable.var {Q : Term → Prop} (hQ : Stable Q) {t : Term} (ht : Q t) {i : Nat}
    (hi : i ∈ t.vars) : Q (.var i) := by
  induction t using induction with
  | var j =>
    obtain rfl : i = j := by simpa using hi
    exact ht
  | app head args ih =>
    obtain ⟨u, hu, hi⟩ := mem_vars_app.1 hi
    exact ih u hu (hQ.args ht u hu) hi
  | cases s arms ihs ih =>
    rcases mem_vars_cases.1 hi with hi | ⟨arm, harm, hi⟩
    · exact ihs (hQ.scrutinee ht) hi
    · exact ih arm harm (hQ.bodies ht arm harm) hi

/-! ## Terms over a set of placeholders -/

variable {V : Nat → Prop} {t u : Term} {head : String} {args extra : List Term}

/-- Only placeholders of the set occur in the term. -/
def Over (V : Nat → Prop) (t : Term) : Prop := ∀ i ∈ t.vars, V i

@[simp] theorem over_var {i : Nat} : (Term.var i).Over V ↔ V i := by simp [Over]

@[simp] theorem over_app : (Term.app head args).Over V ↔ ∀ t ∈ args, t.Over V := by
  simp only [Over, mem_vars_app]
  constructor
  · exact fun h t ht i hi => h i ⟨t, ht, hi⟩
  · rintro h i ⟨t, ht, hi⟩
    exact h t ht i hi

@[simp] theorem over_cases {s : Term} {arms : List (Arm Term)} :
    (Term.cases s arms).Over V ↔ s.Over V ∧ ∀ arm ∈ arms, arm.body.Over V := by
  simp only [Over, mem_vars_cases]
  constructor
  · intro h
    exact ⟨fun i hi => h i (.inl hi), fun arm harm i hi => h i (.inr ⟨arm, harm, hi⟩)⟩
  · rintro ⟨hs, harms⟩ i (hi | ⟨arm, harm, hi⟩)
    · exact hs i hi
    · exact harms arm harm i hi

theorem over_subst {f : Nat → Term} : (t.subst f).Over V ↔ ∀ i ∈ t.vars, (f i).Over V := by
  simp only [Over, mem_vars_subst]
  constructor
  · exact fun h i hi j hj => h j ⟨i, hi, hj⟩
  · rintro h j ⟨i, hi, hj⟩
    exact h i hi j hj

theorem stable_over : Stable (Over V) where
  args h := over_app.1 h
  scrutinee h := (over_cases.1 h).1
  bodies h := (over_cases.1 h).2
  subst _ hf := over_subst.2 hf

/-- Renaming shifts all placeholders, so that those from the offset on are enough. -/
theorem over_rename {offset : Nat} (hV : ∀ i, offset ≤ i → V i) : (t.rename offset).Over V := by
  rw [rename_eq_subst, over_subst]
  exact fun i _ => over_var.2 (hV _ (Nat.le_add_left ..))

theorem Over.extend? (ht : t.Over V) (hextra : ∀ x ∈ extra, x.Over V)
    (h : t.extend? extra = some u) : u.Over V := by
  cases t with
  | var i => cases h
  | cases s arms => cases h
  | app head args =>
    cases h
    simp only [over_app, List.mem_append] at ht ⊢
    rintro x (hx | hx)
    · exact ht x hx
    · exact hextra x hx

end Term

end Monotonicity
