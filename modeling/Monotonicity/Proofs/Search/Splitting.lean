import Monotonicity.Proofs.Limit.Basic
import Monotonicity.Proofs.Substitution.Complete
import Monotonicity.Search.Candidate
import Monotonicity.Search.CaseSplit

/-!
# Splitting a side

To use a candidate for a goal, each side of the goal is split into the candidate's side, the base,
and further arguments. This comes down to one unification. `LinesUp` says of which two terms: an
application has its last arguments split off and the rest is unified with the base, and a
placeholder is unified with the base applied to new placeholders.

`splitSide_run` says what a call comes to: the unification goes through, or it does not and the
bindings are as before, or the indices for new placeholders run out. That the side then is the base
applied to what was split off is read off from there (`LinesUp.applied_eq`), and so is that an
application is split wherever this can be done (`LinesUp.exists_unify`).
-/

namespace Monotonicity

variable {σ τ : Subst} {side base t a b : Term} {head : String} {xs ys args : List Term}
  {extra next n : Nat} {θ : Nat → Term}

/-- Where a term is applied to arguments and gives an application, these stand at its end. -/
theorem eq_of_applyArm?_eq_app (h : applyArm? t ys = some (.app head xs)) :
    ys.length ≤ xs.length ∧ t = .app head (xs.take (xs.length - ys.length)) := by
  cases ys with
  | nil =>
    obtain rfl : t = .app head xs := by simpa [applyArm?] using h
    simp
  | cons y ys =>
    cases t with
    | var i => simp [applyArm?, Term.extend?] at h
    | cases s arms => simp [applyArm?, Term.extend?] at h
    | app f zs =>
      obtain ⟨rfl, rfl⟩ : f = head ∧ zs ++ y :: ys = xs := by
        simpa [applyArm?, Term.extend?] using h
      simp

/-- The state after so many placeholders were set aside. -/
def State.reserved (s : State) (n : Nat) : State :=
  { s with ledger := { s.ledger with nextVar := s.ledger.nextVar + n } }

theorem State.kept_reserved (s : State) (n : Nat) : s.Kept (s.reserved n) :=
  Search.kept_ledger { Ledger.Advanced.refl s.ledger with nextVar := Nat.le_add_right .. }

namespace Search

variable {goal : Goal} {s u : State}

/-! ## New placeholders -/

theorem run_freshVar (h : s.ledger.nextVar + 1 < indexBound) :
    freshVar.run s = .success (.var s.ledger.nextVar) (s.reserved 1) := by
  have hreserve : (reserve 1).run s = .success s.ledger.nextVar (s.reserved 1) := if_pos h
  rw [freshVar, run_bind, hreserve]
  rfl

/-- New placeholders have consecutive indices, from the first unused one on. -/
theorem run_freshVars (h : n = 0 ∨ s.ledger.nextVar + n < indexBound) :
    (freshVars n).run s =
      .success ((List.range' s.ledger.nextVar n).map .var) (s.reserved n) := by
  induction n generalizing s with
  | zero => rfl
  | succ n ih =>
    have hrest : n = 0 ∨ (s.reserved 1).ledger.nextVar + n < indexBound := by
      simp only [State.reserved]
      omega
    have hstate : (s.reserved 1).reserved n = s.reserved (n + 1) := by
      simp [State.reserved, Nat.add_assoc, Nat.add_comm 1 n]
    rw [freshVars, run_bind, run_freshVar (by omega)]
    dsimp only
    rw [run_bind, ih hrest, hstate]
    rfl

/-- Where there are not enough indices left, there is no result. -/
theorem freshVars_overflows (hn : n ≠ 0) (h : indexBound ≤ s.ledger.nextVar + n) :
    ∃ l, (freshVars n).run s = .overflow l := by
  induction n generalizing s with
  | zero => exact (hn rfl).elim
  | succ n ih =>
    rw [freshVars, run_bind]
    by_cases hroom : s.ledger.nextVar + 1 < indexBound
    · obtain ⟨l, hl⟩ : ∃ l, (freshVars n).run (s.reserved 1) = .overflow l :=
        ih (by omega) (by simp only [State.reserved]; omega)
      rw [run_freshVar hroom]
      dsimp only
      rw [run_bind, hl]
      exact ⟨l, rfl⟩
    · have hreserve : (reserve 1).run s = .overflow s.ledger := if_neg hroom
      rw [freshVar, run_bind, hreserve]
      exact ⟨s.ledger, rfl⟩

/-! ## The unification that a splitting comes down to -/

/-- The side is split by unifying the two terms, and these arguments are split off. -/
inductive LinesUp (σ : Subst) (next : Nat) (side base : Term) (extra : Nat) :
    Term → Term → List Term → Prop
  | bare {i : Nat} (h : σ.walk side = .var i) (hzero : extra = 0) :
      LinesUp σ next side base extra (.var i) base []
  | applied {i : Nat} {head : String} {xs : List Term} (h : σ.walk side = .var i)
      (hpos : extra ≠ 0) (hbase : σ.walk base = .app head xs) :
      LinesUp σ next side base extra (.var i)
        (.app head (xs ++ (List.range' next extra).map .var)) ((List.range' next extra).map .var)
  | cut {head : String} {xs : List Term} (h : σ.walk side = .app head xs)
      (hlen : extra ≤ xs.length) :
      LinesUp σ next side base extra (.app head (xs.take (xs.length - extra))) base
        (xs.drop (xs.length - extra))

namespace LinesUp

theorem length_eq (h : LinesUp σ next side base extra a b args) : args.length = extra := by
  cases h with
  | bare hwalk hzero => exact hzero.symm
  | applied hwalk hpos hbase => simp
  | cut hwalk hlen =>
    rw [List.length_drop]
    omega

/-- Of an application the last arguments are split off. -/
theorem of_app (h : LinesUp σ next side base extra a b args) (hwalk : σ.walk side = .app head xs) :
    extra ≤ xs.length ∧ a = .app head (xs.take (xs.length - extra)) ∧ b = base ∧
      args = xs.drop (xs.length - extra) := by
  cases h with
  | bare h hzero => simp [hwalk] at h
  | applied h hpos hbase => simp [hwalk] at h
  | cut h hlen =>
    cases hwalk.symm.trans h
    exact ⟨hlen, rfl, rfl, rfl⟩

/-- From a placeholder new placeholders are split off. -/
theorem iff_of_var {i : Nat} (hwalk : σ.walk side = .var i) :
    LinesUp σ next side base extra a b args ↔ a = .var i ∧
      args = (List.range' next extra).map .var ∧
      (if extra = 0 then some base else (σ.walk base).extend? args) = some b := by
  constructor
  · intro h
    cases h with
    | bare h hzero =>
      cases hwalk.symm.trans h
      simp [hzero]
    | applied h hpos hbase =>
      cases hwalk.symm.trans h
      simp [hpos, hbase, Term.extend?]
    | cut h hlen => simp [hwalk] at h
  · rintro ⟨rfl, rfl, hb⟩
    by_cases hzero : extra = 0
    · obtain rfl : base = b := by simpa [hzero] using hb
      have hbare : LinesUp σ next side base extra (.var i) base [] := .bare hwalk hzero
      simpa [hzero] using hbare
    · rw [if_neg hzero] at hb
      cases hbase : σ.walk base with
      | var j => simp [hbase, Term.extend?] at hb
      | cases s arms => simp [hbase, Term.extend?] at hb
      | app head xs =>
        obtain rfl : .app head (xs ++ (List.range' next extra).map .var) = b := by
          simpa [hbase, Term.extend?] using hb
        exact .applied hwalk hzero hbase

/-- Once the two terms are unified, the side is the base applied to what is split off. -/
theorem applied_eq (h : LinesUp σ next side base extra a b args) (hτ : τ.Acyclic)
    (hunify : σ.unify a b = some τ) :
    applyArm? (τ.resolve base) (args.map τ.resolve) = some (τ.resolve side) := by
  have hgains := Subst.unify_gains hunify
  have heq : τ.resolve a = τ.resolve b := hgains.resolve_eq hτ (Subst.le_refl τ)
  rw [← hτ.resolve_walk hgains.le side]
  cases h with
  | bare hwalk hzero =>
    rw [hwalk, heq]
    rfl
  | @applied i head xs hwalk hpos hbase =>
    rw [hwalk, heq, ← hτ.resolve_walk hgains.le base, hbase, hτ.resolve_app, hτ.resolve_app,
      List.map_append]
    simp [applyArm?, Term.extend?, hpos]
  | @cut head xs hwalk hlen =>
    rw [hwalk, ← heq, hτ.resolve_app, hτ.resolve_app]
    have hwhole : xs.map τ.resolve = (xs.take (xs.length - extra)).map τ.resolve ++
        (xs.drop (xs.length - extra)).map τ.resolve := by
      rw [← List.map_append, List.take_append_drop]
    rw [hwhole]
    cases (xs.drop (xs.length - extra)).map τ.resolve <;> simp [applyArm?, Term.extend?]

/-- An application that some assignment makes the base with further arguments can be lined up, and
the two terms are unified. -/
theorem exists_unify (next : Nat) (hσ : σ.Acyclic) (hwalk : σ.walk side = .app head xs)
    (hθ : σ.Solves θ) (happlied : applyArm? (base.subst θ) ys = some (side.subst θ)) :
    ∃ a b args τ, LinesUp σ next side base ys.length a b args ∧ σ.unify a b = some τ := by
  rw [← hθ.walk side, hwalk, Term.subst_app] at happlied
  obtain ⟨hlen, hbase⟩ := eq_of_applyArm?_eq_app happlied
  rw [List.length_map] at hlen hbase
  have hequal : (Term.app head (xs.take (xs.length - ys.length))).subst θ = base.subst θ := by
    rw [hbase, Term.subst_app, List.map_take]
  obtain ⟨τ, hτ, -⟩ := Subst.unify_complete hσ hθ hequal
  exact ⟨_, _, _, τ, .cut hwalk hlen, hτ⟩

end LinesUp

/-! ## What a splitting comes to -/

/-- The statistics with one more unification. -/
def oneUnification (n : Stats) : Stats := { n with unifications := n.unifications + 1 }

/-- Where two terms cannot be unified, nothing is bound. -/
theorem ifUnify_run (goal : Goal) (hs : s.Kept u) :
    (∃ t, (Search.unify a b >>= fun ok => if ok = true then pure args else noCandidate goal).run u =
        .success args t ∧ s.Grown t ∧ s.subst.unify a b = some t.subst) ∨
    ∃ why t,
      (Search.unify a b >>= fun ok => if ok = true then pure args else noCandidate goal).run u =
        .failure why t ∧ s.Kept t ∧ s.subst.unify a b = none := by
  have hcounted : u.Kept (u.counted oneUnification) :=
    u.kept_counted fun n => by simp [Stats.le_def, oneUnification]
  have hrun : (Search.unify a b).run u = (assign a b).run (u.counted oneUnification) := rfl
  have hsubst : (u.counted oneUnification).subst = s.subst := hs.subst
  rw [run_bind, hrun, assign]
  dsimp only
  rw [hsubst]
  cases hunify : s.subst.unify a b with
  | some τ =>
    refine .inl ⟨_, rfl, (hs.trans hcounted).grown.trans ?_, rfl⟩
    have hgains := Subst.unify_gains hunify
    exact ⟨hsubst ▸ hgains.le, hsubst ▸ hgains.acyclic, rfl, List.prefix_refl _, rfl, rfl, .refl _⟩
  | none => exact .inr ⟨_, _, rfl, hs.trans hcounted, rfl⟩

/-- A side is split by the unification that it is lined up for, or nothing is bound, or the indices
for new placeholders run out. -/
theorem splitSide_run (goal : Goal) (side base : Term) (extra : Nat) (s : State) :
    match (splitSide goal side base extra).run s with
    | .success args t => s.Grown t ∧ ∃ a b,
        LinesUp s.subst s.ledger.nextVar side base extra a b args ∧
          s.subst.unify a b = some t.subst
    | .failure _ t => s.Kept t ∧ ∀ a b args,
        LinesUp s.subst s.ledger.nextVar side base extra a b args → s.subst.unify a b = none
    | .overflow _ => (∃ i, s.subst.walk side = .var i) ∧ indexBound ≤ s.ledger.nextVar + extra := by
  rw [splitSide, run_bind]
  dsimp only [Search.subst]
  cases hwalk : s.subst.walk side with
  | cases scrutinee arms =>
    refine ⟨.refl s, fun a b args h => ?_⟩
    cases h <;> simp_all
  | app head xs =>
    dsimp only
    by_cases hlen : xs.length < extra
    · rw [if_pos hlen]
      refine ⟨.refl s, fun a b args h => ?_⟩
      have hle := (h.of_app hwalk).1
      omega
    · rw [if_neg hlen]
      rcases ifUnify_run goal (.refl s) with ⟨t, hrun, ht, hunify⟩ | ⟨why, t, hrun, ht, hunify⟩
      · rw [hrun]
        exact ⟨ht, _, _, .cut hwalk (by omega), hunify⟩
      · rw [hrun]
        refine ⟨ht, fun a b args h => ?_⟩
        obtain ⟨-, rfl, rfl, -⟩ := h.of_app hwalk
        exact hunify
  | var i =>
    dsimp only
    by_cases hroom : extra = 0 ∨ s.ledger.nextVar + extra < indexBound
    · rw [run_bind, run_freshVars hroom]
      dsimp only
      cases hvalue : if extra = 0 then some base else
          (s.subst.walk base).extend? ((List.range' s.ledger.nextVar extra).map .var) with
      | none =>
        refine ⟨s.kept_reserved extra, fun a b args h => ?_⟩
        obtain ⟨-, rfl, hb⟩ := (LinesUp.iff_of_var hwalk).1 h
        cases hvalue.symm.trans hb
      | some value =>
        dsimp only [require]
        rw [pure_bind]
        rcases ifUnify_run goal (s.kept_reserved extra) with
          ⟨t, hrun, ht, hunify⟩ | ⟨why, t, hrun, ht, hunify⟩
        · rw [hrun]
          exact ⟨ht, _, _, (LinesUp.iff_of_var hwalk).2 ⟨rfl, rfl, hvalue⟩, hunify⟩
        · rw [hrun]
          refine ⟨ht, fun a b args h => ?_⟩
          obtain ⟨rfl, rfl, hb⟩ := (LinesUp.iff_of_var hwalk).1 h
          cases hvalue.symm.trans hb
          exact hunify
    · push Not at hroom
      obtain ⟨l, hl⟩ := freshVars_overflows hroom.1 hroom.2
      rw [run_bind, hl]
      exact ⟨⟨i, rfl⟩, hroom.2⟩

/-- `split_side` is exact: if it is split, it is the base applied to so many arguments under the new
bindings, which go on from the old ones; if not, nothing is bound. There is neither only if the side
is a placeholder for which the indices run out. An application is split whenever it can be made the
base with so many arguments. -/
theorem split_exact (goal : Goal) (side base : Term) (extra : Nat) (hs : s.subst.Acyclic) :
    (∀ args t, (splitSide goal side base extra).run s = .success args t →
      args.length = extra ∧
      applyArm? (t.subst.resolve base) (args.map t.subst.resolve) = some (t.subst.resolve side) ∧
      (extra = 0 → t.subst.resolve side = t.subst.resolve base) ∧
      s.subst ≤ t.subst ∧ t.subst.Acyclic ∧
      (∀ i, s.subst.walk side = .var i → args = (List.range' s.ledger.nextVar extra).map .var) ∧
      ∀ head xs, s.subst.walk side = .app head xs →
        extra ≤ xs.length ∧ args = xs.drop (xs.length - extra)) ∧
    (∀ why t, (splitSide goal side base extra).run s = .failure why t → s.Kept t) ∧
    (∀ l, (splitSide goal side base extra).run s = .overflow l →
      (∃ i, s.subst.walk side = .var i) ∧ indexBound ≤ s.ledger.nextVar + extra) ∧
    ∀ head xs, s.subst.walk side = .app head xs →
      ((∃ args t, (splitSide goal side base extra).run s = .success args t) ↔
        ∃ θ ys, s.subst.Solves θ ∧ ys.length = extra ∧
          applyArm? (base.subst θ) ys = some (side.subst θ)) := by
  have hcall := splitSide_run goal side base extra s
  refine ⟨fun args t hrun => ?_, fun why t hrun => ?_, fun l hrun => ?_, fun head xs hwalk => ?_⟩
  · rw [hrun] at hcall
    obtain ⟨hgrown, a, b, hlines, hunify⟩ := hcall
    have ht := hgrown.acyclic hs
    have happlied := hlines.applied_eq ht hunify
    refine ⟨hlines.length_eq, happlied, fun hzero => ?_, hgrown.subst, ht, fun i hwalk => ?_,
      fun head xs hwalk => ?_⟩
    · obtain rfl : args = [] := List.length_eq_zero_iff.1 (hlines.length_eq.trans hzero)
      exact (Option.some.inj happlied).symm
    · exact ((LinesUp.iff_of_var hwalk).1 hlines).2.1
    · have hcut := hlines.of_app hwalk
      exact ⟨hcut.1, hcut.2.2.2⟩
  · rw [hrun] at hcall
    exact hcall.1
  · rw [hrun] at hcall
    exact hcall
  · constructor
    · rintro ⟨args, t, hrun⟩
      rw [hrun] at hcall
      obtain ⟨hgrown, a, b, hlines, hunify⟩ := hcall
      have ht := hgrown.acyclic hs
      refine ⟨t.subst.value, args.map t.subst.resolve,
        ht.solves_value.of_le ht.nodup hgrown.subst, ?_, ?_⟩
      · rw [List.length_map, hlines.length_eq]
      · rw [← ht.resolve_eq_subst, ← ht.resolve_eq_subst]
        exact hlines.applied_eq ht hunify
    · rintro ⟨θ, ys, hθ, rfl, happlied⟩
      obtain ⟨a, b, args, τ, hlines, hunify⟩ :=
        LinesUp.exists_unify s.ledger.nextVar hs hwalk hθ happlied
      cases hrun : (splitSide goal side base ys.length).run s with
      | success args t => exact ⟨args, t, rfl⟩
      | failure why t =>
        rw [hrun] at hcall
        rw [hcall.2 a b args hlines] at hunify
        cases hunify
      | overflow l =>
        rw [hrun] at hcall
        obtain ⟨⟨i, hi⟩, -⟩ := hcall
        cases hwalk.symm.trans hi

/-- A state in which `?0` is bound to `f ?1`, and the placeholders from `?3` on are unused. -/
def lining : State where
  subst := Subst.empty.bind 0 (.app "f" [.var 1])
  ledger := { nextVar := 3, symbols := {} }

/-- Of `f a b c` two arguments are split off for the base `?0`, which makes `?1` equal to `a`, and
`?2` becomes the same base with two new arguments. -/
theorem lining_split :
    let goal : Goal :=
      .related (.const "R") (.app "f" [.const "a", .const "b", .const "c"]) (.var 2)
    lining.subst.Acyclic ∧
    (∃ t, (splitSide goal (.app "f" [.const "a", .const "b", .const "c"]) (.var 0) 2).run lining =
        .success [.const "b", .const "c"] t ∧
      applyArm? (t.subst.resolve (.var 0)) ([.const "b", .const "c"].map t.subst.resolve) =
        some (t.subst.resolve (.app "f" [.const "a", .const "b", .const "c"]))) ∧
    ∃ t, (splitSide goal (.var 2) (.var 0) 2).run lining = .success [.var 3, .var 4] t ∧
      applyArm? (t.subst.resolve (.var 0)) ([.var 3, .var 4].map t.subst.resolve) =
        some (t.subst.resolve (.var 2)) := by
  intro goal
  have hs : lining.subst.Acyclic :=
    Subst.acyclic_empty.bind_of_occurs (by decide +kernel) (by decide +kernel)
  obtain ⟨t, ht⟩ : ∃ t, (splitSide goal (.app "f" [.const "a", .const "b", .const "c"]) (.var 0)
    2).run lining = .success [.const "b", .const "c"] t := ⟨_, rfl⟩
  obtain ⟨u, hu⟩ : ∃ u, (splitSide goal (.var 2) (.var 0) 2).run lining =
    .success [.var 3, .var 4] u := ⟨_, rfl⟩
  exact ⟨hs, ⟨t, ht, ((split_exact goal _ _ 2 hs).1 _ t ht).2.1⟩,
    u, hu, ((split_exact goal _ _ 2 hs).1 _ u hu).2.1⟩

end Search

end Monotonicity
