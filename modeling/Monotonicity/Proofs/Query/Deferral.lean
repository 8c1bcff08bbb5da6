import Monotonicity.Proofs.Query.Observation

/-!
# The account of obligations put off

A proof refers to an obligation that was put off by its position. When it is handed on, the positions
that occur in it, in tree order, are those that were filled since the goal was taken up, in the order
in which they were filled: the premises of every rule are listed in the order in which they were
found, and going back over a branch empties exactly the positions that were filled in it. So the
obligations of a solution are those that its proof refers to, each once and in order.
-/

namespace Monotonicity

open Search

variable {T : Theory} {s t u : State} {goal : Goal} {ps : List Proof}

/-! ## Positions -/

/-- The positions of the obligations that were put off from one state to a later one. -/
def State.putOff (s t : State) : List Nat :=
  List.range' s.delayed.length (t.delayed.length - s.delayed.length)

theorem State.Grown.length_delayed (h : s.Grown t) : s.delayed.length ≤ t.delayed.length :=
  h.delayed.length_le

theorem putOff_of_eq (h : t.delayed = s.delayed) : s.putOff t = [] := by
  simp [State.putOff, h]

theorem putOff_trans (ht : s.Grown t) (hu : t.Grown u) : s.putOff t ++ t.putOff u = s.putOff u := by
  have hst := ht.length_delayed
  have htu := hu.length_delayed
  unfold State.putOff
  have hfirst : t.delayed.length = s.delayed.length + (t.delayed.length - s.delayed.length) := by
    omega
  have hlength : u.delayed.length - s.delayed.length =
      (t.delayed.length - s.delayed.length) + (u.delayed.length - t.delayed.length) := by
    omega
  rw [hlength, ← List.range'_append_1, ← hfirst]

theorem Proof.deferralsAll_append (ps qs : List Proof) :
    deferralsAll (ps ++ qs) = deferralsAll ps ++ deferralsAll qs := by
  induction ps with
  | nil => rfl
  | cons p ps ih => simp [deferralsAll, ih]

/-! ## Along courses -/

/-- The obligations in a proof are those put off while it was found. -/
def accounted : Handover := fun s _ p t => p.deferrals = s.putOff t

theorem Course.deferralsAll_eq (h : Course T accounted s goal ps t) :
    Proof.deferralsAll ps = s.putOff t := by
  induction h with
  | start => exact (putOff_of_eq rfl).symm
  | keep before hk ih => rw [ih, State.putOff, State.putOff, hk.delayed]
  | unify before ha hb hunify ih => exact ih
  | leaf before p hp hname ih => simp [Proof.deferralsAll_append, Proof.deferralsAll, ih, hp]
  | @defer ps t before x ih =>
    have hlast : t.putOff { t with delayed := t.delayed ++ [x] } = [t.delayed.length] := by
      simp [State.putOff]
    rw [Proof.deferralsAll_append, ih, ← putOff_trans before.grown (grown_of_defer t x), hlast]
    rfl
  | @prove ps t u p before further g hfurther hg hgrown hp ih =>
    have hproof : p.deferrals = t.putOff (u.withdraw t.hyps.length) := hp
    rw [Proof.deferralsAll_append, ih, ← putOff_trans before.grown hgrown.of_assume, ← hproof]
    simp [Proof.deferralsAll]

/-- The step of a rule refers to what its premises refer to. -/
theorem closed_accounted : accounted.Closed T := by
  intro s s₁ t goal rule ps _ _ hk hcourse
  have hpremises := hcourse.deferralsAll_eq
  have hstart : (s₁.enter (goal.resolve s.subst)).putOff t = s.putOff t.leave := by
    simp [State.putOff, State.enter, State.leave, hk.delayed]
  rw [hstart] at hpremises
  exact hpremises

/-! ## Solutions -/

namespace Engine

variable {E : Engine}

theorem putOff_start (bound : Nat) (t : State) :
    (E.start bound).putOff t = List.range t.delayed.length := by
  simp [State.putOff, start, List.range_eq_range']

theorem search_deferrals (hE : E.theory.Library) (goal : Goal) (bound : Nat) :
    (E.search goal).Yields (E.start bound) fun p t => p.deferrals = List.range t.delayed.length := by
  refine hE.yields closed_accounted Subst.acyclic_empty fun p t _ hp => ?_
  have hproof : p.deferrals = (E.start bound).putOff t := hp
  rw [putOff_start] at hproof
  exact hproof

/-- What was transported is read off the state in which the search ended. -/
theorem transport_eq_ok {lifted edge : Nat} {c : Computation} {r : Transported}
    (h : (E.transport lifted edge c).1.result = .ok (.ok r)) :
    ∃ f e bound final, E.theory.registry.facts[lifted]? = some f ∧
      E.theory.registry.facts[edge]? = some e ∧ schematic? [c.term, c.value] = some bound ∧
      (Search.transport E.theory (Search.solve E.theory E.theory.limits.maxDepth) bound lifted
        edge f e c).run (E.start bound) = .success r final := by
  unfold Engine.transport at h
  split at h
  · next f e hf he =>
    unfold query at h
    split at h
    · cases h
    · next bound hbound =>
      dsimp only at h
      split at h
      · next r' final hrun =>
        cases h
        exact ⟨f, e, bound, final, hf, he, hbound, hrun⟩
      · cases h
      · cases h
  · cases h
  · cases h

/-- An engine that puts goals off and was told that `h` is monotone in two arguments, that `f` and
`g` take related arguments to related optional values, and that `le a b`. -/
def withOption : Engine :=
  let le : Term := .const "le"
  let theory := (Theory.standard { deferUnsolved := true }).addRelators
  let told : Option Registry := do
    let (_, r) ← theory.registry.addSelf? (.arrow le (.arrow le le)) (.const "h") (.const "h_mono")
    let (_, r) ← r.addFact? (.arrow le (.app "option_rel" [le])) (.const "f") (.const "g")
      (.const "fg")
    let (_, r) ← r.addFact? le (.const "a") (.const "b") (.const "ab")
    return r
  { Engine.new {} with theory := { theory with registry := told.getD {} } }

end Engine

end Monotonicity
