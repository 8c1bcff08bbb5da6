import Monotonicity.Proofs.Substitution.Traversal
import Monotonicity.Proofs.Substitution.Within

/-!
# Unification finds a most general unifier

An assignment that agrees with the bindings and makes two terms equal stands in the way of every
cause for which their unification could fail: heads and arms agree, and no placeholder occurs in a
term that it has to be equal to, since the value would be a part of itself. Moreover it agrees with
every binding that is made. So a unification succeeds if there is such an assignment, and then its
bindings ask for nothing that the assignment does not have.

What has to be shown besides is that the budget lasts. The placeholders that were followed on the
way down to a term reach all placeholders of the term; so none of them is followed again below it,
and there are no more of them than placeholders at hand.
-/

namespace Monotonicity

open Relation

namespace Subst

variable {σ τ : Subst} {a b t : Term} {i n : Nat} {θ : Nat → Term} {W : List Nat}

/-! ## Placeholders at hand -/

/-- The placeholders that are bound and those of the terms that they are bound to. -/
def mentioned : Subst → List Nat
  | .empty => []
  | .bind σ i t => i :: (t.vars ++ σ.mentioned)

theorem mem_mentioned_of_get? (h : σ.get? i = some t) : ∀ j ∈ t.vars, j ∈ σ.mentioned := by
  induction σ with
  | empty => simp at h
  | bind σ k u ih =>
    intro j hj
    simp only [mentioned, List.mem_cons, List.mem_append]
    by_cases hk : i = k
    · subst hk
      obtain rfl : u = t := by simpa using h
      exact .inr (.inl hj)
    · rw [get?_bind_of_ne σ hk] at h
      exact .inr (.inr (ih h j hj))

/-- There is a unit for every placeholder of the bindings. -/
theorem length_mentioned_le (σ : Subst) : σ.mentioned.length ≤ (Budget.ofSubst σ).length := by
  induction σ with
  | empty => simp [mentioned]
  | bind σ i t ih =>
    have hterm := Budget.length_ofTerm (.ofSubst σ) t
    simp only [mentioned, Budget.ofSubst, Budget.length, List.length_cons, List.length_append]
    omega

/-- There are as many units left as placeholders that may still be followed below `a`, given those
that were followed on the way to it. -/
def Affords (W : List Nat) (n : Nat) (σ : Subst) (a : Term) : Prop :=
  ∃ visited : List Nat, visited.Nodup ∧ visited ⊆ W ∧
    (∀ v ∈ visited, ∀ j ∈ a.vars, TransGen σ.Needs j v) ∧ W.length ≤ visited.length + n

theorem affords_of_length_le (h : W.length ≤ n) (σ : Subst) (a : Term) : Affords W n σ a :=
  ⟨[], by simpa using h⟩

namespace Affords

theorem of_subset (h : Affords W n σ a) (hb : ∀ j ∈ b.vars, j ∈ a.vars) : Affords W n σ b := by
  obtain ⟨visited, hn, hW, hbelow, hlen⟩ := h
  exact ⟨visited, hn, hW, fun v hv j hj => hbelow v hv j (hb j hj), hlen⟩

/-- What was reached is reached at a later stage. -/
theorem later (h : Affords W n σ a) (hτ : τ.Acyclic) (hle : σ ≤ τ) : Affords W n τ a := by
  obtain ⟨visited, hn, hW, hbelow, hlen⟩ := h
  have hneeds : σ.Needs ≤ τ.Needs := fun _ _ ⟨t, ht, hi⟩ => ⟨t, get?_of_le hτ.nodup hle ht, hi⟩
  exact ⟨visited, hn, hW, fun v hv j hj => TransGen.mono hneeds j v (hbelow v hv j hj), hlen⟩

/-- A bound placeholder can be followed: it was not followed before. -/
theorem follow (hσ : σ.Acyclic) (h : Affords W n σ a) (hi : i ∈ a.vars) (hW : i ∈ W)
    (hb : σ.get? i = some t) : ∃ m, n = m + 1 ∧ Affords W m σ t := by
  obtain ⟨visited, hn, hsub, hbelow, hlen⟩ := h
  have hnot : i ∉ visited := hσ.not_mem_visited hi hbelow
  have hnodup : (i :: visited).Nodup := List.nodup_cons.2 ⟨hnot, hn⟩
  have hsub' : i :: visited ⊆ W := List.cons_subset.2 ⟨hW, hsub⟩
  have hlt := (List.subperm_of_subset hnodup hsub').length_le
  rw [List.length_cons] at hlt
  refine ⟨n - 1, by omega, i :: visited, hnodup, hsub', fun v hv j hj => ?_, ?_⟩
  · have hji : σ.Needs j i := ⟨t, hb, hj⟩
    rcases List.mem_cons.1 hv with rfl | hv
    · exact .single hji
    · exact .head hji (hbelow v hv i hi)
  · rw [List.length_cons]
    omega

end Affords

/-! ## Single bindings -/

/-- An assignment that makes a placeholder equal to its term agrees with the binding. -/
theorem Solves.bind (hθ : σ.Solves θ) (h : θ i = t.subst θ) : (σ.bind i t).Solves θ := by
  intro j u hj
  by_cases hji : j = i
  · subst hji
    obtain rfl : t = u := by simpa using hj
    exact h
  · rw [get?_bind_of_ne σ hji] at hj
    exact hθ j u hj

/-- No value is a part of itself. -/
theorem Solves.not_occurs (hθ : σ.Solves θ) (hσ : σ.Acyclic) (ht : ∀ j, t ≠ .var j)
    (h : θ i = t.subst θ) : σ.occurs i t = false := by
  rw [← Bool.not_eq_true]
  intro hoccurs
  have hi := (occurs_iff.1 hoccurs).2
  rw [hσ.resolve_eq_subst, Term.mem_vars_subst] at hi
  obtain ⟨j, hj, hij⟩ := hi
  have hvalue : (σ.value j).subst θ = θ j := hθ.resolve (.var j)
  have hle : sizeOf (θ i) ≤ sizeOf (θ j) := hvalue ▸ Term.sizeOf_le_subst hij
  have hlt : sizeOf (θ j) < sizeOf (t.subst θ) := Term.sizeOf_lt_subst ht hj
  rw [← h] at hlt
  omega

theorem Solves.assign? (hθ : σ.Solves θ) (hσ : σ.Acyclic) (ht : ∀ j, t ≠ .var j)
    (hi : σ.get? i = none) (h : θ i = t.subst θ) : ∃ τ, σ.assign? i t = some τ ∧ τ.Solves θ :=
  ⟨σ.bind i t, assign?_eq_some.2 ⟨hθ.not_occurs hσ ht h, hi, rfl⟩, hθ.bind h⟩

theorem Solves.fill? (hθ : σ.Solves θ) (hσ : σ.Acyclic) (hi : σ.get? i = none)
    (ht : ∀ j, t = .var j → σ.get? j = none) (h : θ i = t.subst θ) :
    ∃ τ, σ.fill? i t = some τ ∧ τ.Solves θ := by
  cases t with
  | app head args => exact hθ.assign? hσ (by simp) hi h
  | cases s arms => exact hθ.assign? hσ (by simp) hi h
  | var j =>
    simp only [Subst.fill?]
    split_ifs
    · exact ⟨σ, rfl, hθ⟩
    · exact ⟨_, bindNew?_eq_some.2 ⟨ht j rfl, rfl⟩, hθ.bind h.symm⟩
    · exact ⟨_, bindNew?_eq_some.2 ⟨hi, rfl⟩, hθ.bind h⟩

/-! ## Going down two terms -/

/-- The bindings at hand have no cycle, mention no placeholder outside of `W` for those in it, and
the assignment agrees with them. -/
structure Suits (W : List Nat) (θ : Nat → Term) (σ : Subst) : Prop where
  acyclic : σ.Acyclic
  within : σ.Within (Term.Over (· ∈ W))
  solves : σ.Solves θ

/-- Both terms are over `W`, there is budget enough to go down the first, and the assignment makes
them equal. -/
structure Solvable (W : List Nat) (θ : Nat → Term) (n : Nat) (σ : Subst) (a b : Term) : Prop where
  left : a.Over (· ∈ W)
  right : b.Over (· ∈ W)
  affords : Affords W n σ a
  equal : a.subst θ = b.subst θ

/-- A way of unifying that succeeds with so many units wherever it can, and then keeps to the
assignment. -/
def Completes (W : List Nat) (θ : Nat → Term) (n : Nat)
    (run : Term → Term → Subst → Option Subst) : Prop :=
  ∀ a b σ, Suits W θ σ → Solvable W θ n σ a b → ∃ τ, run a b σ = some τ ∧ τ.Solves θ

section Descent

variable {follow : Term → Term → Subst → Option Subst}

/-- What is left to do can still be done after a part of it. -/
theorem Solvable.later (h : Solvable W θ n σ a b) (hτ : τ.Acyclic) (hle : σ ≤ τ) :
    Solvable W θ n τ a b :=
  { h with affords := h.affords.later hτ hle }

theorem descendAll_complete (hunifies : Unifies follow)
    (hconfines : Confines (Term.Over (· ∈ W)) follow) {xs ys : List Term}
    (hxs : ∀ x ∈ xs, ∀ b σ, Suits W θ σ → Solvable W θ n σ x b →
      ∃ τ, descend follow x b σ = some τ ∧ τ.Solves θ)
    (hσ : Suits W θ σ) (h : List.Forall₂ (Solvable W θ n σ) xs ys) :
    ∃ τ, descendAll follow xs ys σ = some τ ∧ Suits W θ τ ∧ σ ≤ τ := by
  induction h with
  | nil => exact ⟨σ, rfl, hσ, le_refl σ⟩
  | @cons x y xs ys hxy hrest ih =>
    rw [List.forall_mem_cons] at hxs
    obtain ⟨υ, hυ, hsuits, hle⟩ := ih hxs.2
    have hlater := hxy.later hsuits.acyclic hle
    obtain ⟨τ, hτ, hsolves⟩ := hxs.1 y υ hsuits hlater
    have hgains := descend_unifies hunifies x y υ τ hτ
    have hconfined := descend_confines Term.stable_over hconfines x y υ τ hlater.left hlater.right
      hsuits.within hτ
    refine ⟨τ, by simp [descendAll, hυ, hτ], ⟨hgains.acyclic hsuits.acyclic, hconfined.within,
      hsolves⟩, le_trans hle hgains.le⟩

/-- The bodies of arms are gone through as terms of a list are. -/
theorem descendArms_eq (xs ys : List (Arm Term)) (σ : Subst) :
    descendArms follow xs ys σ = descendAll follow (xs.map (·.body)) (ys.map (·.body)) σ := by
  induction xs generalizing ys with
  | nil => cases ys <;> rfl
  | cons x xs ih =>
    cases ys with
    | nil => rfl
    | cons y ys => simp only [descendArms, descendAll, List.map_cons, ih]

/-- Where two lists of arms are made equal, they are aligned and their bodies are made equal. -/
theorem aligned_of_equal {xs ys : List (Arm Term)}
    (h : (xs.map fun arm => { arm with body := arm.body.subst θ }) =
      ys.map fun arm => { arm with body := arm.body.subst θ }) :
    aligned xs ys = true ∧
      (xs.map (·.body)).map (·.subst θ) = (ys.map (·.body)).map (·.subst θ) := by
  have hshape := congrArg (List.map fun arm : Arm Term => (arm.ctor, arm.arity)) h
  have hbodies := congrArg (List.map fun arm : Arm Term => arm.body) h
  simp only [List.map_map, Function.comp_def] at hshape hbodies
  exact ⟨by simp [aligned, hshape], by simpa [Function.comp_def] using hbodies⟩

/-- Lists of terms over `W` that the assignment makes equal can be gone through in pairs. -/
theorem forall₂_solvable {xs ys : List Term} (hxs : ∀ x ∈ xs, x.Over (· ∈ W))
    (hys : ∀ y ∈ ys, y.Over (· ∈ W)) (haffords : ∀ x ∈ xs, Affords W n σ x)
    (h : xs.map (·.subst θ) = ys.map (·.subst θ)) : List.Forall₂ (Solvable W θ n σ) xs ys := by
  induction xs generalizing ys with
  | nil =>
    obtain rfl : ys = [] := by simpa using h.symm
    exact .nil
  | cons x xs ih =>
    cases ys with
    | nil => simp at h
    | cons y ys =>
      rw [List.forall_mem_cons] at hxs hys haffords
      simp only [List.map_cons, List.cons.injEq] at h
      exact .cons ⟨hxs.1, hys.1, haffords.1, h.1⟩ (ih hxs.2 hys.2 haffords.2 h.2)

/-- One way down succeeds wherever it can, if this is so of the terms behind bound placeholders. For
these there is a unit less. -/
theorem descend_completes (hunifies : Unifies follow)
    (hconfines : Confines (Term.Over (· ∈ W)) follow)
    (hfollow : ∀ m, n = m + 1 → Completes W θ m follow) : Completes W θ n (descend follow) := by
  intro a
  induction a using Term.induction with
  | var i =>
    intro b σ hσ h
    simp only [descend]
    split
    · next t ht =>
      have hi : i ∈ W := Term.over_var.1 h.left
      obtain ⟨m, rfl, haffords⟩ := h.affords.follow hσ.acyclic (by simp) hi ht
      refine hfollow m rfl t b σ hσ ⟨hσ.within i t h.left ht, h.right, haffords, ?_⟩
      rw [← h.equal]
      exact (hσ.solves i t ht).symm
    · next hi =>
      refine hσ.solves.fill? hσ.acyclic hi (fun j => hσ.acyclic.walk_eq_var) ?_
      rw [hσ.solves.walk]
      exact h.equal
  | app f xs ih =>
    intro b σ hσ h
    have hequal : (Term.app f xs).subst θ = (σ.walk b).subst θ := by
      rw [hσ.solves.walk]
      exact h.equal
    have hright := hσ.within.walk h.right
    simp only [descend]
    split
    · exact ⟨σ, rfl, hσ.solves⟩
    · cases hb : σ.walk b with
      | var j =>
        rw [hb] at hequal
        exact hσ.solves.assign? hσ.acyclic (by simp) (hσ.acyclic.walk_eq_var hb) hequal.symm
      | cases s arms =>
        rw [hb] at hequal
        simp at hequal
      | app g ys =>
        rw [hb] at hequal hright
        simp only [Term.subst_app, Term.app.injEq] at hequal
        obtain ⟨rfl, hargs⟩ := hequal
        have hlength : xs.length = ys.length := by simpa using congrArg List.length hargs
        have hpairs := forall₂_solvable (Term.over_app.1 h.left) (Term.over_app.1 hright)
          (fun x hx => h.affords.of_subset fun j hj => Term.mem_vars_app.2 ⟨x, hx, hj⟩) hargs
        obtain ⟨τ, hτ, hsuits, -⟩ := descendAll_complete hunifies hconfines ih hσ hpairs
        exact ⟨τ, by simp [hlength, hτ], hsuits.solves⟩
  | cases s xs ihs ih =>
    intro b σ hσ h
    have hequal : (Term.cases s xs).subst θ = (σ.walk b).subst θ := by
      rw [hσ.solves.walk]
      exact h.equal
    have hright := hσ.within.walk h.right
    simp only [descend]
    split
    · exact ⟨σ, rfl, hσ.solves⟩
    · cases hb : σ.walk b with
      | var j =>
        rw [hb] at hequal
        exact hσ.solves.assign? hσ.acyclic (by simp) (hσ.acyclic.walk_eq_var hb) hequal.symm
      | app g ys =>
        rw [hb] at hequal
        simp at hequal
      | cases t ys =>
        rw [hb] at hequal hright
        simp only [Term.subst_cases, Term.cases.injEq] at hequal
        obtain ⟨hscrutinee, harms⟩ := hequal
        obtain ⟨haligned, hbodies⟩ := aligned_of_equal harms
        obtain ⟨hs, hxs⟩ := Term.over_cases.1 h.left
        obtain ⟨ht, hys⟩ := Term.over_cases.1 hright
        have hsub : ∀ x ∈ xs.map (·.body), Affords W n σ x := fun x hx => by
          obtain ⟨arm, harm, rfl⟩ := List.mem_map.1 hx
          exact h.affords.of_subset fun j hj => Term.mem_vars_cases.2 (.inr ⟨arm, harm, hj⟩)
        have hpairs := forall₂_solvable (List.forall_mem_map.2 hxs) (List.forall_mem_map.2 hys)
          hsub hbodies
        obtain ⟨υ, hυ, hsuits, hle⟩ := descendAll_complete hunifies hconfines
          (List.forall_mem_map.2 ih) hσ hpairs
        have hstart : Solvable W θ n σ s t :=
          ⟨hs, ht, h.affords.of_subset fun j hj => Term.mem_vars_cases.2 (.inl hj), hscrutinee⟩
        obtain ⟨τ, hτ, hsolves⟩ := ihs t υ hsuits (hstart.later hsuits.acyclic hle)
        exact ⟨τ, by simp [haligned, descendArms_eq, hυ, hτ], hsolves⟩

end Descent

theorem unifyFor_completes (W : List Nat) (θ : Nat → Term) (budget : Budget) :
    Completes W θ budget.length (unifyFor budget) := by
  induction budget with
  | spent =>
    refine descend_completes (fun _ _ _ _ h => by cases h) (fun _ _ _ _ _ _ _ h => by cases h) ?_
    intro m hm
    simp [Budget.length] at hm
  | more rest ih =>
    refine descend_completes (unifyFor_unifies _) (unifyFor_confines Term.stable_over _) ?_
    intro m hm
    obtain rfl : (rest ()).length = m := by simpa [Budget.length] using hm
    exact ih ()

/-- Two terms that an assignment makes equal are unified, and the assignment agrees with the new
bindings. -/
theorem unify_complete (hσ : σ.Acyclic) (hθ : σ.Solves θ) (h : a.subst θ = b.subst θ) :
    ∃ τ, σ.unify a b = some τ ∧ τ.Solves θ := by
  let W := Term.varsAll [a, b] ++ σ.mentioned
  have hunits : W.length ≤ (Budget.ofTerms (.ofSubst σ) [a, b]).length := by
    have hterms := Budget.length_ofTerms (.ofSubst σ) [a, b]
    have hsubst := σ.length_mentioned_le
    rw [List.length_append]
    omega
  have hwithin : σ.Within (Term.Over (· ∈ W)) := fun i t _ ht j hj =>
    List.mem_append.2 (.inr (mem_mentioned_of_get? ht j hj))
  refine unifyFor_completes W θ _ a b σ ⟨hσ, hwithin, hθ⟩ ⟨fun j hj => ?_, fun j hj => ?_, ?_, h⟩
  · simp [W, Term.varsAll, hj]
  · simp [W, Term.varsAll, hj]
  · exact affords_of_length_le hunits σ a

/-- `unify` succeeds if and only if some assignment agrees with the bindings and makes the two terms
equal. The new substitution then goes on from the one given, the terms have the same value under it,
and every such assignment agrees with it. -/
theorem unify_most_general (hσ : σ.Acyclic) (a b : Term) :
    ((σ.unify a b).isSome = true ↔ ∃ θ, σ.Solves θ ∧ a.subst θ = b.subst θ) ∧
    ∀ τ, σ.unify a b = some τ →
      σ ≤ τ ∧ τ.Acyclic ∧ τ.resolve a = τ.resolve b ∧
      ∀ θ, σ.Solves θ → a.subst θ = b.subst θ → τ.Solves θ := by
  refine ⟨⟨fun h => ?_, fun ⟨θ, hθ, heq⟩ => ?_⟩, fun τ hτ => ?_⟩
  · obtain ⟨τ, hτ⟩ := Option.isSome_iff_exists.1 h
    have hgains := unify_gains hτ
    have hacyclic := hgains.acyclic hσ
    exact ⟨τ.value, hgains.solves hacyclic hacyclic.solves_value,
      hgains.gain hacyclic _ hacyclic.solves_value⟩
  · obtain ⟨τ, hτ, -⟩ := unify_complete hσ hθ heq
    rw [hτ]
    rfl
  · have hgains := unify_gains hτ
    have hacyclic := hgains.acyclic hσ
    refine ⟨hgains.le, hacyclic, hgains.resolve_eq hacyclic (le_refl τ), fun θ hθ heq => ?_⟩
    obtain ⟨υ, hυ, hsolves⟩ := unify_complete hσ hθ heq
    rw [hτ, Option.some.injEq] at hυ
    exact hυ ▸ hsolves

/-- With `?1` bound to `f ?0`, nothing makes `?0` and `?1` equal, and only `c` for `?0` makes `?1`
equal to `f c`. -/
theorem unify_behind_binding :
    let σ := Subst.empty.bind 1 (.app "f" [.var 0])
    σ.Acyclic ∧ (¬ ∃ θ, σ.Solves θ ∧ (Term.var 0).subst θ = (Term.var 1).subst θ) ∧
    ∀ θ, σ.Solves θ → (Term.var 1).subst θ = (Term.app "f" [.const "c"]).subst θ →
      θ 0 = .const "c" := by
  intro σ
  have hσ : σ.Acyclic := by
    refine acyclic_empty.bind (get?_empty 1) ?_
    rintro ⟨j, hj, hij⟩
    obtain rfl : j = 0 := by simpa using hj
    rcases reflTransGen_needs hij with h | ⟨t, ht, -⟩
    · cases h
    · simp at ht
  refine ⟨hσ, fun h => ?_, fun θ hθ heq => ?_⟩
  · have hfails : (σ.unify (.var 0) (.var 1)).isSome = false := by decide +kernel
    rw [(unify_most_general hσ _ _).1.2 h] at hfails
    cases hfails
  · have hsome : σ.unify (.var 1) (.app "f" [.const "c"]) = some (σ.bind 0 (.const "c")) := rfl
    have hsolves := ((unify_most_general hσ _ _).2 _ hsome).2.2.2 θ hθ heq
    exact solves_bind hsolves

end Subst

end Monotonicity
