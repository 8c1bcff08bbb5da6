import Monotonicity.Proofs.Calculus.Replay
import Monotonicity.Proofs.Renaming.Candidate

/-!
# A library does not see other names

Where a renaming changes nothing that a library holds, the solver proves a goal under other names
as it does under these, step by step.
-/

namespace Monotonicity

open Search

variable {T : Theory} {r : Renaming} {ρ : Type} {goal : Goal} {prove : Prover} {g : ρ → ρ}
  {k k' : Proof → Search ρ}

namespace Theory.Untouched

/-- All methods of a library's rules do the same under other names. -/
theorem method (hT : T.Untouched r) (h : T.Library) {rule : Rule} (hrule : rule ∈ T.rules) :
    rule.method.Equivariant T r := by
  rcases h rule hrule with hstandard | ⟨r, rfl⟩
  · simp only [Rule.standard, List.mem_cons, List.not_mem_nil, or_false] at hstandard
    rcases hstandard with rfl | rfl | rfl | rfl | rfl | rfl | rfl | rfl | rfl | rfl | rfl | rfl |
      rfl | rfl | rfl | rfl | rfl | rfl
    · exact top
    · exact hT.eqRefl
    · exact hT.flipIntro
    · exact hT.arrowIntro
    · exact hT.dependentIntro
    · exact hT.casesReduce
    · exact hT.subrelRefl
    · exact hT.subrelExtremes
    · exact hT.subrelFact
    · exact hT.subrelStructural
    · exact hT.subrelTrans
    · exact hT.destruct
    · exact hT.monotone .left
    · exact hT.monotone .right
    · exact hT.eqCongruence
    · exact hT.eqUnify
    · exact hT.reflPlaceholder
    · exact deferUnsolved
  · exact hT.relatorIntro

theorem applyRule (hT : T.Untouched r) (h : T.Library) (hprove : prove.Equivariant r) {rule : Rule}
    (hrule : rule ∈ T.rules) (hk : ∀ p, Mirrors r g (k p) (k' (r • p))) :
    Mirrors r g (applyRule T prove goal k rule) (Search.applyRule T prove (r • goal) k' rule) := by
  refine hT.method h hrule hprove fun d => ?_
  refine hprove.proveAll (fun premises => ?_) d.subgoals d.premises
  rw [← Proof.smul_step]
  exact hk _

theorem tryRules (hT : T.Untouched r) (h : T.Library) (hprove : prove.Equivariant r)
    {rules : List Rule} (hrules : rules ⊆ T.rules) (hk : ∀ p, Mirrors r g (k p) (k' (r • p)))
    (best : Option Failure) :
    Mirrors r g (tryRules T prove goal k rules best)
      (Search.tryRules T prove (r • goal) k' rules (best.map (r • ·))) := by
  induction rules generalizing best with
  | nil => exact (Mirrors.noRule goal).failBest best
  | cons rule rules ih =>
    rw [List.cons_subset] at hrules
    refine Mirrors.subst fun σ => .ite ?_ (.spent .exhausted ?_) (ih hrules.2 best)
    · rw [Pattern.fits_smul hT.proper (hT.patterns rule hrules.1)]
    · refine (Mirrors.count _).bind fun _ => (hT.applyRule h hprove hrules.1 hk).attempt.recover
        fun why => (Mirrors.count _).bind fun _ => .unlessSpent ?_
      rw [Failure.orElse_smul]
      exact ih hrules.2 (some (why.orElse best))

theorem solveResolved (hT : T.Untouched r) (h : T.Library) (hprove : prove.Equivariant r)
    (goal : Goal) (hk : ∀ p, Mirrors r g (k p) (k' (r • p))) :
    Mirrors r g (solveResolved T prove goal k) (Search.solveResolved T prove (r • goal) k') := by
  refine Mirrors.active fun goals => .ite ?_ .fail ?_
  · simp [Goal.smul_inj hT.proper]
  · exact .inside goal (hT.tryRules h hprove (List.Subset.refl _) (fun p => .outside goal (hk p))
      none)

/-- The solver of a library that a renaming leaves alone. -/
theorem solve (hT : T.Untouched r) (h : T.Library) (room : Nat) :
    Prover.Equivariant r (solve T room) := by
  induction room with
  | zero => exact fun _ _ _ _ _ _ => .exhausted
  | succ room ih =>
    intro ρ g goal k k' hk
    refine .spent .exhausted (Mirrors.subst fun σ => ?_)
    rw [Goal.resolve_smul]
    exact hT.solveResolved h ih _ hk

end Theory.Untouched

/-! ## What a registry holds -/

/-- A value that is found stands among the entries. -/
theorem Table.mem_of_get? {κ ν : Type} [DecidableEq κ] {t : Table κ ν} {key : κ} {value : ν}
    (h : t.get? key = some value) : (key, value) ∈ t.entries := by
  unfold Table.get? at h
  generalize t.entries = entries at h ⊢
  fun_induction Table.find key entries with
  | case1 => cases h
  | case2 v rest => simp_all
  | case3 k v rest hne ih => exact List.mem_cons_of_mem _ (ih h)

/-- The relations that the schemes fix for fields. -/
def Registry.fixed (r : Registry) : List Term :=
  r.schemes.entries.flatMap fun entry => entry.2.cases.flatMap fun pair =>
    pair.fields.filterMap fun
      | .fixed rel => some rel
      | _ => none

theorem Registry.mem_fixed {r : Registry} {head : String} {scheme : Scheme} {pair : CasePair}
    {rel : Term} (hscheme : r.schemes.get? head = some scheme) (hpair : pair ∈ scheme.cases)
    (hrel : FieldRel.fixed rel ∈ pair.fields) : rel ∈ r.fixed := by
  refine List.mem_flatMap.2 ⟨_, Table.mem_of_get? hscheme, List.mem_flatMap.2 ⟨pair, hpair, ?_⟩⟩
  exact List.mem_filterMap.2 ⟨_, hrel, rfl⟩

end Monotonicity
