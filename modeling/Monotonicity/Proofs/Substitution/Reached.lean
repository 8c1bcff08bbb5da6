import Monotonicity.Proofs.Substitution.Worklist

/-!
# Substitutions that are reached

`unify` is a run of steps: if it succeeds, its answer is the end of the run, and if it fails, then
the run comes to two terms that clash (`Orderly.unifiesInSteps`). One half of this follows the
recursion of `unify`. For the other half, a run that gets through all pairs leaves a solution
behind, so that `unify` finds one too, and it cannot be another one since steps are determined.

A search does nothing to its substitution but unify and roll back. What holds after any sequence of
these, and in the middle of a unification, is the main result here: `reached_traversable`.
-/

namespace Monotonicity

open Relation

namespace Subst

variable {σ τ : Subst} {a b : Term} {i j : Nat} {pairs : List (Term × Term)}

/-! ## The answer of `unify` -/

/-- The treatment of a pair depends on what its terms are walked to. -/
theorem treat_congr {a' : Term} (h : σ.walk a = σ.walk a') : σ.treat a b = σ.treat a' b := by
  unfold treat
  rw [h]

theorem treat_of_fill? (hi : σ.get? i = none) (h : σ.fill? i (σ.walk b) = some τ) :
    σ.treat (.var i) b = .next τ [] := by
  unfold treat
  rw [walk_of_unbound hi]
  cases hw : σ.walk b with
  | var j =>
    simp only [hw, fill?] at h
    split_ifs at h with hij hlt
    · simp_all
    · obtain ⟨hj, rfl⟩ := bindNew?_eq_some.1 h
      simp [hij, hlt, bindOnce_of_unbound hj]
    · obtain ⟨-, rfl⟩ := bindNew?_eq_some.1 h
      simp [hij, hlt, bindOnce_of_unbound hi]
  | app head args =>
    rw [hw, fill?, assign?_eq_some] at h
    · obtain ⟨ho, -, rfl⟩ := h
      simp [bindChecked, ho, bindOnce_of_unbound hi]
    · simp
  | cases s arms =>
    rw [hw, fill?, assign?_eq_some] at h
    · obtain ⟨ho, -, rfl⟩ := h
      simp [bindChecked, ho, bindOnce_of_unbound hi]
    · simp

theorem treat_of_assign? (ha : ∀ i, a ≠ .var i) (hb : σ.walk b = .var j)
    (h : σ.assign? j a = some τ) : σ.treat a b = .next τ [] := by
  unfold treat
  rw [walk_of_ne_var ha, hb]
  obtain ⟨ho, hj, rfl⟩ := assign?_eq_some.1 h
  cases a with
  | var i => exact (ha i rfl).elim
  | app head args => simp [bindChecked, ho, bindOnce_of_unbound hj]
  | cases s arms => simp [bindChecked, ho, bindOnce_of_unbound hj]

theorem treat_of_childPairs? (ha : ∀ i, a ≠ .var i) (hne : a ≠ σ.walk b)
    (h : childPairs? a (σ.walk b) = some pairs) : σ.treat a b = .next σ pairs := by
  unfold treat
  rw [walk_of_ne_var ha, if_neg hne]
  cases a with
  | var i => exact (ha i rfl).elim
  | app head args =>
    cases hb : σ.walk b with
    | app g ys => simp only [hb ▸ h]
    | var j => simp [childPairs?, hb] at h
    | cases t ys => simp [childPairs?, hb] at h
  | cases s arms =>
    cases hb : σ.walk b with
    | cases t ys => simp only [hb ▸ h]
    | var j => simp [childPairs?, hb] at h
    | app g ys => simp [childPairs?, hb] at h

theorem treat_of_equal (h : σ.walk a = σ.walk b) : σ.treat a b = .next σ [] := by
  simp [treat, h]

open Job

/-- A way of unifying that is a run. -/
def Runs (unify : Term → Term → Subst → Option Subst) : Prop :=
  ∀ a b σ τ rest, σ.Orderly → unify a b σ = some τ → Run ⟨(a, b) :: rest, σ⟩ ⟨rest, τ⟩

section Descent

variable {follow : Term → Term → Subst → Option Subst}

theorem run_of_treat {rest : List (Term × Term)} (h : σ.treat a b = .next τ pairs) :
    Run ⟨(a, b) :: rest, σ⟩ ⟨pairs ++ rest, τ⟩ :=
  .single (.treat h)

theorem descendAll_runs {xs ys : List Term} {rest : List (Term × Term)}
    (hxs : ∀ x ∈ xs, ∀ b σ τ rest, σ.Orderly → descend follow x b σ = some τ →
      Run ⟨(x, b) :: rest, σ⟩ ⟨rest, τ⟩)
    (hσ : σ.Orderly) (h : descendAll follow xs ys σ = some τ) :
    Run ⟨(xs.zip ys).reverse ++ rest, σ⟩ ⟨rest, τ⟩ := by
  induction xs generalizing ys τ rest with
  | nil =>
    simp only [descendAll, Option.some.injEq] at h
    exact h ▸ .refl
  | cons x xs ih =>
    cases ys with
    | nil =>
      simp only [descendAll, Option.some.injEq] at h
      exact h ▸ .refl
    | cons y ys =>
      rw [List.forall_mem_cons] at hxs
      simp only [descendAll, Option.bind_eq_some_iff] at h
      obtain ⟨υ, hυ, hτ⟩ := h
      have htail : Run ⟨(xs.zip ys).reverse ++ (x, y) :: rest, σ⟩ ⟨(x, y) :: rest, υ⟩ :=
        ih hxs.2 hυ
      have hhead := hxs.1 y υ τ rest (htail.orderly hσ).1 hτ
      rw [List.zip_cons_cons, List.reverse_cons, List.append_assoc]
      exact htail.trans hhead

/-- One way down is a run if this is so behind bound placeholders. -/
theorem descend_runs (hfollow : Runs follow) : Runs (descend follow) := by
  intro a
  induction a using Term.induction with
  | var i =>
    intro b σ τ rest hσ h
    simp only [descend] at h
    split at h
    · next t ht =>
      -- the pair at hand is treated as the one with the bound term is
      rcases ReflTransGen.cases_head (hfollow t b σ τ rest hσ h) with heq | ⟨next, hstep, hrest⟩
      · simp at heq
      · cases hstep with
        | treat hstep =>
          rw [← treat_congr (hσ.acyclic.walk_of_bound ht)] at hstep
          exact .head (.treat hstep) hrest
    · next hi => exact run_of_treat (treat_of_fill? hi h)
  | app f xs ih =>
    intro b σ τ rest hσ h
    simp only [descend] at h
    split at h
    · next heq =>
      cases h
      exact run_of_treat (treat_of_equal (by rw [walk_of_ne_var (by simp), heq]))
    · next hne =>
      cases hb : σ.walk b with
      | var j =>
        simp only [hb] at h
        exact run_of_treat (treat_of_assign? (by simp) hb h)
      | cases t ys => simp [hb] at h
      | app g ys =>
        simp only [hb] at h
        split at h
        · next hfg =>
          have hpairs : childPairs? (.app f xs) (σ.walk b) = some (xs.zip ys).reverse := by
            simp [hb, childPairs?, hfg]
          exact (run_of_treat (treat_of_childPairs? (by simp) hne hpairs)).trans
            (descendAll_runs ih hσ h)
        · cases h
  | cases s xs ihs ih =>
    intro b σ τ rest hσ h
    simp only [descend] at h
    split at h
    · next heq =>
      cases h
      exact run_of_treat (treat_of_equal (by rw [walk_of_ne_var (by simp), heq]))
    · next hne =>
      cases hb : σ.walk b with
      | var j =>
        simp only [hb] at h
        exact run_of_treat (treat_of_assign? (by simp) hb h)
      | app g ys => simp [hb] at h
      | cases t ys =>
        simp only [hb] at h
        split at h
        · next hal =>
          obtain ⟨υ, hυ, hτ⟩ := Option.bind_eq_some_iff.1 h
          rw [descendArms_eq] at hυ
          have hpairs : childPairs? (.cases s xs) (σ.walk b) =
              some (((xs.map (·.body)).zip (ys.map (·.body))).reverse ++ [(s, t)]) := by
            simp [hb, childPairs?, hal]
          have harms : Run ⟨((xs.map (·.body)).zip (ys.map (·.body))).reverse ++ (s, t) :: rest, σ⟩
              ⟨(s, t) :: rest, υ⟩ := descendAll_runs (List.forall_mem_map.2 ih) hσ hυ
          have hscrutinee := ihs t υ τ rest (harms.orderly hσ).1 hτ
          have hsplit : Run ⟨(.cases s xs, b) :: rest, σ⟩ ⟨_ ++ rest, σ⟩ :=
            run_of_treat (treat_of_childPairs? (by simp) hne hpairs)
          rw [List.append_assoc] at hsplit
          exact hsplit.trans (harms.trans hscrutinee)
        · cases h

end Descent

theorem unifyFor_runs (budget : Budget) : Runs (unifyFor budget) := by
  induction budget with
  | spent => exact descend_runs fun _ _ _ _ _ _ h => by cases h
  | more rest ih => exact descend_runs (ih ())

/-- What `unify` says of two terms is where their job ends, and on the way no placeholder is bound
twice and no binding is lost. -/
structure UnifiesInSteps (σ : Subst) (a b : Term) : Prop where
  ends : Acc (flip Step) ⟨[(a, b)], σ⟩
  never_rebinds : ∀ job, Run ⟨[(a, b)], σ⟩ job → ¬ job.Rebinds
  rollback : ∀ job, Run ⟨[(a, b)], σ⟩ job → job.subst.rollback σ.size = σ
  some_iff : ∀ τ, σ.unify a b = some τ ↔ Run ⟨[(a, b)], σ⟩ ⟨[], τ⟩
  none_iff : σ.unify a b = none ↔ ∃ job, Run ⟨[(a, b)], σ⟩ job ∧ job.Clashes

theorem Orderly.run_of_unify (hσ : σ.Orderly) (h : σ.unify a b = some τ) :
    Run ⟨[(a, b)], σ⟩ ⟨[], τ⟩ :=
  unifyFor_runs _ a b σ τ [] hσ h

/-- A run that gets through all pairs has found a solution, so `unify` finds one too; and there is
one way only to go on. -/
theorem Orderly.unify_of_run (hσ : σ.Orderly) (h : Run ⟨[(a, b)], σ⟩ ⟨[], τ⟩) :
    σ.unify a b = some τ := by
  have hτ : τ.Orderly := (h.orderly hσ).1
  obtain ⟨hsolves, hpairs⟩ := h.solved hσ ⟨hτ.acyclic.solves_value, by simp⟩
  obtain ⟨υ, hυ, -⟩ := unify_complete hσ.acyclic hsolves (hpairs (a, b) List.mem_cons_self)
  have heq := (hσ.run_of_unify hυ).unique h final_nil final_nil
  cases heq
  exact hυ

theorem Orderly.unifiesInSteps (hσ : σ.Orderly) (a b : Term) : σ.UnifiesInSteps a b where
  ends := acc_of_orderly hσ
  never_rebinds job hrun := not_rebinds (hrun.orderly hσ).1.acyclic
  rollback job hrun := rollback_of_le (hrun.orderly hσ).2
  some_iff τ := ⟨hσ.run_of_unify, hσ.unify_of_run⟩
  none_iff := by
    constructor
    · intro hnone
      obtain ⟨last, hrun, hlast⟩ : ∃ last, Run ⟨[(a, b)], σ⟩ last ∧ last.Final := exists_final hσ
      refine ⟨last, hrun, (hlast.cases (hrun.orderly hσ).1.acyclic).resolve_left fun hdone => ?_⟩
      obtain ⟨pairs, τ⟩ := last
      obtain rfl : pairs = [] := hdone
      rw [hσ.unify_of_run hrun] at hnone
      cases hnone
    · rintro ⟨job, hrun, hclash⟩
      by_contra hsome
      obtain ⟨τ, hτ⟩ := Option.ne_none_iff_exists'.1 hsome
      have heq := (hσ.run_of_unify hτ).unique hrun final_nil hclash.final
      obtain ⟨a, b, rest, hpairs, -⟩ := hclash
      rw [← heq] at hpairs
      cases hpairs

/-! ## All substitutions that are reached -/

/-- Substitutions that unifications and rollbacks lead to. A unification may be left anywhere: one
that fails is left where two terms clash, and then it is rolled back to where it began. -/
inductive Reached : Subst → Prop
  | empty : Reached .empty
  | unify {σ : Subst} {a b : Term} {job : Job} (hσ : Reached σ) (h : Run ⟨[(a, b)], σ⟩ job) :
      Reached job.subst
  | rollback {σ : Subst} (hσ : Reached σ) (mark : Nat) : Reached (σ.rollback mark)

theorem rollback_le (σ : Subst) (mark : Nat) : σ.rollback mark ≤ σ := by
  rw [le_def, rollback, trail_dropLast]
  exact List.drop_suffix _ _

theorem Reached.orderly (h : Reached σ) : σ.Orderly := by
  induction h with
  | empty => exact orderly_empty
  | unify _ hrun ih => exact (hrun.orderly ih).1
  | rollback _ mark ih => exact ih.of_le (rollback_le _ mark)

/-- Wherever `unify` and `rollback` lead, no placeholder is reached from itself, one that is bound
to a placeholder is bound to one with a smaller index, and none is bound twice, neither so far nor
by any unification, whether it succeeds or fails. So all traversals end, and a placeholder that is
unbound is found to occur in a term if and only if it is left in the term's value. -/
theorem reached_traversable (h : Reached σ) :
    (∀ i, ¬ TransGen σ.Needs i i) ∧
    (∀ i j, σ.get? i = some (.var j) → j < i) ∧
    (σ.trail.map Prod.fst).Nodup ∧
    (∀ a b, σ.UnifiesInSteps a b) ∧
    σ.Traversable ∧
    ∀ i t, σ.get? i = none → (σ.occurs i t = true ↔ i ∈ (σ.resolve t).vars) := by
  have hσ := h.orderly
  refine ⟨hσ.acyclic.not_reaches_self, hσ.down, hσ.acyclic.nodup, hσ.unifiesInSteps,
    hσ.acyclic.traversable, fun i t hi => ?_⟩
  rw [occurs_iff]
  exact and_iff_right hi

/-- Two unifications bind `?0` to `f ?1` and `?2` to `?1`. A third one, of `h ?1 ?3` with
`h (g ?2) c`, binds `?3` before it is given up, since `?1` occurs in `g ?2`. -/
theorem reached_after_clash :
    let σ := (Subst.empty.bind 0 (.app "f" [.var 1])).bind 2 (.var 1)
    let a := Term.app "h" [.var 1, .var 3]
    let b := Term.app "h" [.app "g" [.var 2], .const "c"]
    Reached σ ∧
    (∃ job, Run ⟨[(a, b)], σ⟩ job ∧ job.Clashes ∧ job.subst.rollback 2 = σ) ∧
    ∀ i, σ.get? i = none → (σ.occurs i (.var 0) = true ↔ i = 1) := by
  intro σ a b
  have hfirst : Run ⟨[(.var 0, .app "f" [.var 1])], .empty⟩
      ⟨[], .bind .empty 0 (.app "f" [.var 1])⟩ :=
    orderly_empty.run_of_unify rfl
  have hsecond : Run ⟨[(.var 1, .var 2)], .bind .empty 0 (.app "f" [.var 1])⟩ ⟨[], σ⟩ :=
    (Reached.empty.unify hfirst).orderly.run_of_unify rfl
  have hσ : Reached σ := (Reached.empty.unify hfirst).unify hsecond
  obtain ⟨-, -, -, hsteps, -, hoccurs⟩ := reached_traversable hσ
  refine ⟨hσ, ?_, fun i hi => ?_⟩
  · have hnone : σ.unify a b = none := Option.isNone_iff_eq_none.1 (by decide +kernel)
    obtain ⟨job, hrun, hclash⟩ := (hsteps a b).none_iff.1 hnone
    exact ⟨job, hrun, hclash, (hsteps a b).rollback job hrun⟩
  · have hvalue : σ.resolve (.var 0) = .app "f" [.var 1] := rfl
    rw [hoccurs i (.var 0) hi, hvalue]
    simp

end Subst

end Monotonicity
