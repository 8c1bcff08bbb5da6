import Monotonicity.Proofs.Relation.View
import Monotonicity.Proofs.Search.Ends
import Monotonicity.Search.Solver

/-!
# Contracts

A contract says on which goals and under which bindings a prover may be called, and what is then
true of every proof that it hands to its continuation. A prover that meets a contract moreover takes
back what it did if it fails, provided that its continuation leaves behind no less than it found.

The solver meets a contract as soon as every rule of its theory keeps it, whatever the room: this
is `met_solve`. What is left to show of a rule is about one application of it, with a prover for the
goals that it raises that meets the contract already.
-/

namespace Monotonicity

open Search

/-! ## What a solver does with a goal -/

namespace Search

variable {T : Theory} {prove : Prover} {ρ : Type} {S : ρ → State → Prop} {s t : State} {goal : Goal}
  {k : Proof → Search ρ}

/-- Rules that are tried are taken back. -/
theorem tryRules_restores {rules : List Rule} {best : Option Failure}
    (hrules : ∀ rule ∈ rules, rule.pattern.fits s.subst goal = true → ∀ t, s.Kept t →
      (applyRule T prove goal k rule).Yields t S) :
    (tryRules T prove goal k rules best).Restores s S := by
  induction rules generalizing s best with
  | nil => cases best <;> exact State.Kept.refl s
  | cons rule rules ih =>
    rw [List.forall_mem_cons] at hrules
    refine Restores.subst ?_
    split
    · next hfits =>
      refine Restores.ledger ?_
      split
      · exact State.Kept.refl s
      · -- the application is counted, tried, taken back if it fails, and counted again
        refine Restores.count (fun n => by simp [Stats.le_def]) fun t ht => ?_
        refine Ends.recover (hrules.1 hfits t ht).attempt fun why u hu => ?_
        refine Restores.from (Restores.count (fun n => by simp [Stats.le_def]) fun v hv => ?_) hu
        have hsv : s.Kept v := (ht.trans hu).trans hv
        refine unlessSpent_restores (ih fun rule hrule hfits t ht => ?_)
        rw [hsv.subst] at hfits
        exact hrules.2 rule hrule hfits t (hsv.trans ht)
    · exact ih hrules.2

/-- While the continuation runs, the goal is not in progress. -/
theorem Yields.outside {m : Search ρ} (hs : (s.enter goal).Grown t) (h : m.Yields t.leave S) :
    (outside goal m).Yields t S :=
  Ends.within State.leave _ (Ends.mono h (fun _ hu => hs.enter_leave hu) fun _ _ => id)

theorem solveResolved_restores
    (hrules : ∀ rule ∈ T.rules, rule.pattern.fits s.subst goal = true →
      ∀ t, (s.enter goal).Kept t →
        (applyRule T prove goal (fun p => outside goal (k p)) rule).Yields t S) :
    (solveResolved T prove goal k).Restores s S := by
  refine Restores.active ?_
  split
  · exact State.Kept.refl s
  · refine Restores.depth (Restores.count (fun n => by simp [Stats.le_def]) fun t ht => ?_)
    have hentered : (s.enter goal).Kept (t.enter goal) :=
      ⟨ht.subst, ht.hyps, ht.delayed, congrArg (goal :: ·) ht.active, congrArg (· + 1) ht.depth,
        ht.ledger⟩
    refine Ends.within (·.enter goal) _ (Ends.mono
      (tryRules_restores fun rule hrule hfits u hu => ?_) (fun _ => .of_enter) fun _ _ => id)
    rw [hentered.subst] at hfits
    exact hrules rule hrule hfits u (hentered.trans hu)

end Search

/-! ## Contracts -/

/-- What may be asked of a prover, and what its proofs are worth. -/
structure Contract where
  /-- Of the bindings, before a call and when a proof is handed on. -/
  inv : Subst → Prop
  /-- Of the goal. -/
  admits : Goal → Prop
  /-- Of a proof, found for a goal under hypotheses when so many symbols had been minted, once these
  are the bindings and the obligations put off. -/
  grants : Nat → List Hypothesis → Goal → Proof → Subst → List Pending → Prop
  admits_resolve : ∀ {σ goal}, inv σ → admits goal → admits (goal.resolve σ)
  grants_resolve : ∀ {n hyps goal p σ τ d}, σ ≤ τ → grants n hyps (goal.resolve σ) p τ d →
    grants n hyps goal p τ d
  grants_of_le : ∀ {m n hyps goal p τ d}, m ≤ n → grants n hyps goal p τ d →
    grants m hyps goal p τ d
  grants_mono : ∀ {n hyps goal p τ υ d e}, τ ≤ υ → d <+: e → grants n hyps goal p τ d →
    grants n hyps goal p υ e

namespace Contract

variable {C : Contract} {T : Theory} {prove : Prover} {ρ : Type} {S : ρ → State → Prop}
  {s t u : State} {goal : Goal} {k : Proof → Search ρ} {p : Proof}

/-- What holds of the proofs of a goal that was taken up at `s`, when they are handed on at `t`. -/
structure Granted (C : Contract) (s : State) (goal : Goal) (p : Proof) (t : State) : Prop where
  grown : s.Grown t
  inv : C.inv t.subst
  grants : C.grants s.minted s.hyps goal p t.subst t.delayed

/-- A continuation that goes on well from every proof of a goal taken up at `s`. -/
def Serves (C : Contract) (s : State) (goal : Goal) (k : Proof → Search ρ)
    (S : ρ → State → Prop) : Prop :=
  ∀ p t, C.Granted s goal p t → (k p).Yields t S

/-- The prover takes back what it did if it fails, and hands on only proofs that are granted. -/
def Met (C : Contract) (prove : Prover) : Prop :=
  ∀ {ρ : Type} {goal : Goal} {k : Proof → Search ρ} {s : State} {S : ρ → State → Prop},
    C.inv s.subst → C.admits goal → C.Serves s goal k S → (prove ρ goal k).Restores s S

/-- One application of the rule keeps the contract, given a prover that does. The goal comes with
its bound placeholders replaced. -/
def Keeps (C : Contract) (T : Theory) (rule : Rule) : Prop :=
  ∀ {prove : Prover}, C.Met prove →
    ∀ {ρ : Type} {goal : Goal} {k : Proof → Search ρ} {s : State} {S : ρ → State → Prop},
      rule.pattern.fits s.subst goal = true → (s.subst.Acyclic → goal.Left s.subst) →
      C.inv s.subst → C.admits goal → C.Serves s goal k S →
      (applyRule T prove goal k rule).Yields s S

theorem Granted.from (h : C.Granted t goal p u) (hs : s.Grown t) : C.Granted s goal p u where
  grown := hs.trans h.grown
  inv := h.inv
  grants := by
    rw [← hs.hyps]
    exact C.grants_of_le hs.minted h.grants

/-! ## Scopes -/

/-- Further hypotheses are there for the proof and not for the continuation. -/
theorem Met.proveAssuming (hprove : C.Met prove) {further : List Hypothesis}
    (hinv : C.inv s.subst) (hgoal : C.admits goal)
    (hk : ∀ p t, s.Grown t → C.inv t.subst →
      C.grants s.minted (s.hyps ++ further) goal p t.subst t.delayed → (k p).Yields t S) :
    (proveAssuming prove further goal k).Yields s S := by
  refine Yields.hyps (Ends.within _ _ ?_)
  refine Ends.mono (hprove (s := s.assume further) (S := S) hinv hgoal ?_) ?_ fun _ _ => id
  · intro p t ht
    have hafter := hk p (t.withdraw s.hyps.length) ht.grown.of_assume ht.inv ht.grants
    have hback := Ends.mono hafter (fun u hu => ht.grown.assume_drop hu) fun _ _ => id
    exact Ends.within (·.withdraw s.hyps.length) _ hback
  · exact fun t ht => ht.of_assume.grown

/-! ## Several goals -/

/-- Goals proved from left to right are all granted at the end. -/
theorem Met.proveAll (hprove : C.Met prove) {k : List Proof → Search ρ} {goals : List Goal}
    {done : List Proof} (hinv : C.inv s.subst) (hgoals : ∀ g ∈ goals, C.admits g)
    (hk : ∀ ps t, s.Grown t → C.inv t.subst →
      List.Forall₂ (fun g p => C.grants s.minted s.hyps g p t.subst t.delayed) goals ps →
      (k (done ++ ps)).Yields t S) :
    (proveAll prove k goals done).Yields s S := by
  induction goals generalizing s done with
  | nil => simpa [Search.proveAll] using hk [] s (.refl s) hinv .nil
  | cons g goals ih =>
    refine (hprove hinv (hgoals g List.mem_cons_self) fun p t ht => ?_).yields
    refine ih ht.inv (fun g hg => hgoals g (List.mem_cons_of_mem _ hg)) fun ps u hu hi hps => ?_
    rw [List.append_assoc]
    refine hk (p :: ps) u (ht.grown.trans hu) hi (.cons ?_ (hps.imp fun g q hq => ?_))
    · exact C.grants_mono hu.subst hu.delayed ht.grants
    · exact C.grants_of_le ht.grown.minted (ht.grown.hyps ▸ hq)

/-! ## The solver -/

/-- The solver meets every contract that its rules keep. -/
theorem met_solve (hrules : ∀ rule ∈ T.rules, C.Keeps T rule) (room : Nat) :
    C.Met (solve T room) := by
  induction room with
  | zero => exact fun {_ _ _ s _} _ _ _ => State.Kept.refl s
  | succ room ih =>
    intro ρ goal k s S hinv hgoal hk
    refine Restores.ledger ?_
    split
    · exact State.Kept.refl s
    · refine Restores.subst (solveResolved_restores fun rule hrule hfits t ht => ?_)
      have hsubst : t.subst = s.subst := ht.subst
      refine hrules rule hrule ih ?_ ?_ ?_ (C.admits_resolve hinv hgoal) fun p u hu => ?_
      · rwa [hsubst]
      · rw [hsubst]
        exact fun hs => Goal.left_resolve hs goal
      · rwa [hsubst]
      · have hgranted := hu.from ht.grown
        refine .outside hgranted.grown (hk p u.leave ⟨hgranted.grown.of_enter, hu.inv, ?_⟩)
        exact C.grants_resolve hgranted.grown.subst hgranted.grants

end Contract

end Monotonicity
