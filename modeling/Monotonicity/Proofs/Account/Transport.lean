import Monotonicity.Proofs.Account.Solver
import Monotonicity.Query.Transport

/-!
# Transports keep accounts

A transport applies no rule itself. It gets a proof from the prover if the edge has to be bridged,
and one for each obligation that is not put off. They become the premises of its root in this order,
so the steps that are open at its end are those of its proof but for the root.
-/

namespace Monotonicity

open Search Proof

variable {T : Theory} {ρ : Type} {o : List Nat} {d : Nat} {prove prove' : Prover}
  {S : ρ → List Nat → State → Prop}

theorem Search.Quiet.blocked {α : Type} {Q : α → Prop} (obstacle : Obstacle) :
    Quiet T (blocked obstacle : Search α) Q :=
  .fail _

theorem renamed_quiet (f : Fact) : Quiet T (renamed f) :=
  .bind (.reserve _) fun _ _ => .pure trivial

theorem bridgeEdge_settles (hprove : Prover.Accounts T d prove prove') {found wanted : Term}
    {k k' : Option Proof → Search ρ}
    (hk : ∀ p : Option Proof, Settles T (o ++ levelsAll (d + 1) p.toList) d (k p) (k' p) S) :
    Settles T o d (bridgeEdge prove found wanted k) (bridgeEdge prove' found wanted k') S := by
  refine .bind (.unify _ _) fun _ _ => .ite (fun _ => by simpa using hk none) fun _ => ?_
  refine hprove.bridging (fun p => ?_) fun crossed why => ?_
  · rw [← levelsAll_singleton]
    exact hk (some p)
  · exact .ite (fun _ => .of_quiet (.fail _)) fun _ => .of_quiet (.gap _)

theorem fieldObligations_quiet {relation : Term} {args : List Term}
    {fields : List (FieldRel × Term × Term)} :
    Quiet T (fieldObligations relation args fields) := by
  induction fields with
  | nil => exact .pure trivial
  | cons field fields ih =>
    exact .bind (.require (fun _ _ => trivial) (.blocked _)) fun _ _ =>
      .bind ih fun _ _ => .pure trivial

theorem derivedSide_quiet (term left right : Term) : Quiet T (derivedSide term left right) :=
  .ifUnify (.pure trivial) (.ifUnify (.pure trivial) (.blocked _))

theorem plan_quiet {lifted edge : Fact} {result : Subst → Option Term} {c : Computation} :
    Quiet T (plan T lifted edge result c) := by
  refine .bind .subst fun σ _ => ?_
  refine .bind (.require (fun _ _ => trivial) (.blocked _)) fun left _ => ?_
  refine .bind (.require (fun _ _ => trivial) (.blocked _)) fun right _ => ?_
  refine .bind (derivedSide_quiet _ _ _) fun derived _ => .bind .subst fun σ _ => ?_
  refine .bind (.require (fun _ _ => trivial) (.blocked _)) fun relation _ => ?_
  refine .bind .subst fun σ _ => ?_
  split
  · refine .bind (.require (fun _ _ => trivial) (.blocked _)) fun scheme _ => ?_
    refine .bind .subst fun σ _ => ?_
    split
    · refine .bind (.require (fun _ _ => trivial) (.blocked _)) fun pair _ => ?_
      refine .bind (.freshVars _) fun unknown _ => .bind .subst fun σ _ => ?_
      split
      · refine .bind (.unify _ _) fun _ _ => .ite ?_ ?_
        · exact .bind (.blocked (Q := fun _ => False) _) fun _ h => h.elim
        · exact .bind fieldObligations_quiet fun _ _ => .pure trivial
      · exact .bind fieldObligations_quiet fun _ _ => .pure trivial
    · exact .blocked _
  · exact .blocked _

/-- An obligation that is put off is a leaf. -/
theorem discharge_settles (hprove : Prover.Accounts T d prove prove')
    {k k' : List Proof → Search ρ} {goals : List Goal} (done : List Proof)
    (hk : ∀ ps, Settles T (o ++ levelsAll (d + 1) ps) d (k ps) (k' ps) S) :
    Settles T (o ++ levelsAll (d + 1) done) d (discharge prove k goals done)
      (discharge prove' k' goals done) S := by
  induction goals generalizing done with
  | nil => exact hk done
  | cons goal goals ih =>
    refine .recover (.attempt (hprove fun p => ?_)) fun why => ?_
    · rw [← append_levelsAll_snoc]
      exact ih _
    · refine .ite (fun _ => .of_quiet (.fail _)) fun _ => .bind (.defer goal) fun p hp => ?_
      have hrest := ih (done ++ [p])
      rwa [append_levelsAll_snoc, hp, List.append_nil] at hrest

/-- The residual of a transport is the solution at its end, with a proof whose premises have the
steps that are open besides `o`. -/
def Transported.Settled (bound : Nat) (o : List Nat) (d : Nat) (r : Transported)
    (opened : List Nat) (s : State) : Prop :=
  ∃ summary premises, r.residual = .ofProof summary bound (.step "transport" premises) s ∧
    opened = o ++ levelsAll (d + 1) premises

theorem arrive_settles {bound : Nat} {p : Plan} (premises : List Proof) :
    Settles T (o ++ levelsAll (d + 1) premises) d (arrive bound p premises)
      (arrive bound p premises) (Transported.Settled bound o d) := by
  intro n s hs ho
  exact .done (h := []) rfl rfl trivial ⟨hs, p.summary, premises, rfl, ho⟩

theorem transport_settles (hprove : Prover.Accounts T d prove prove')
    {bound liftedId edgeId : Nat} {lifted edge : Fact} {c : Computation} :
    Settles T o d (transport T prove bound liftedId edgeId lifted edge c)
      (transport T prove' bound liftedId edgeId lifted edge c) (Transported.Settled bound o d) := by
  refine .bind (renamed_quiet _) fun lifted _ => .bind (renamed_quiet _) fun edge _ => ?_
  refine .bind .subst fun σ _ => ?_
  have hfacts : ∀ found wanted result, Settles T o d
      (bridgeEdge prove found wanted fun bridged => do
        let p ← plan T lifted edge result c
        discharge prove (arrive bound p) p.obligations
          ([.fact liftedId lifted.witness, .fact edgeId edge.witness] ++ bridged.toList))
      (bridgeEdge prove' found wanted fun bridged => do
        let p ← plan T lifted edge result c
        discharge prove' (arrive bound p) p.obligations
          ([.fact liftedId lifted.witness, .fact edgeId edge.witness] ++ bridged.toList))
      (Transported.Settled bound o d) := by
    intro found wanted result
    refine bridgeEdge_settles hprove fun bridged => .bind plan_quiet fun p _ => ?_
    exact discharge_settles hprove ([.fact liftedId lifted.witness, .fact edgeId edge.witness] ++
      bridged.toList) arrive_settles
  split
  · exact hfacts _ _ _
  · exact hfacts _ _ _
  · exact .of_quiet (.blocked _)

end Monotonicity
