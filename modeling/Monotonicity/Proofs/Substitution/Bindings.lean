import Monotonicity.Proofs.Substitution.Unifier
import Monotonicity.Substitution.Bindings

/-!
# Bindings in place refine trails

The table and the trail of bindings in place are tied together only by what is done to them: an entry
that is filled has its placeholder on the trail, and only if no placeholder is on the trail twice does
clearing the entries of those that are popped leave the entries of the others as they were.
`Represents` says that the two structures show the bindings of a `Subst`. Every operation on them
shows what the operation of that name on `Subst` gives; at a clash, `descendRoot` shows some later
stage of the trail, and `unify` is then back at the stage it started from.
-/

namespace Monotonicity

namespace Subst

theorem rollback_bind {σ : Subst} {i mark : Nat} {t : Term} (h : mark ≤ σ.size) :
    (σ.bind i t).rollback mark = σ.rollback mark := by
  have hsize : (σ.bind i t).size - mark = (σ.size - mark) + 1 := by
    rw [size_bind]
    omega
  rw [rollback, hsize]
  rfl

theorem rollback_of_size_le {σ : Subst} {mark : Nat} (h : σ.size ≤ mark) : σ.rollback mark = σ := by
  rw [rollback, Nat.sub_eq_zero_of_le h]
  cases σ <;> rfl

end Subst

namespace Bindings

variable {β γ : Bindings} {σ τ : Subst} {i j mark : Nat} {t u : Term}

/-! ## The two structures -/

@[simp] theorem get?_bind_self (β : Bindings) (i : Nat) (t : Term) :
    (β.bind i t).get? i = some t := by
  have hlt : i < β.table.size + (i + 1 - β.table.size) := by omega
  simp [get?, bind, hlt]

theorem get?_bind_of_ne (β : Bindings) (h : j ≠ i) (t : Term) :
    (β.bind i t).get? j = β.get? j := by
  simp only [get?, bind, Array.getElem?_setIfInBounds_ne h.symm, Array.getElem?_append]
  split
  · rfl
  · next hj =>
    rw [Array.getElem?_eq_none (Nat.le_of_not_lt hj), Array.getElem?_replicate]
    split <;> rfl

/-- The entry of a placeholder is cleared. -/
def clear (β : Bindings) (i : Nat) : Bindings := { β with table := β.table.setIfInBounds i none }

theorem get?_clear_self (β : Bindings) (i : Nat) : (β.clear i).get? i = none := by
  simp only [get?, clear, Array.getElem?_setIfInBounds_self]
  split <;> rfl

theorem get?_clear_of_ne (β : Bindings) (h : j ≠ i) : (β.clear i).get? j = β.get? j := by
  simp only [get?, clear, Array.getElem?_setIfInBounds_ne h.symm]

/-- The table and the trail show the bindings of a substitution, in which no placeholder is bound
twice. -/
structure Represents (β : Bindings) (σ : Subst) : Prop where
  trail : β.trail.toList = σ.toList.map Prod.fst
  get? : ∀ i, β.get? i = σ.get? i
  nodup : (σ.trail.map Prod.fst).Nodup

theorem represents_empty : ({} : Bindings).Represents .empty :=
  ⟨rfl, fun i => by simp [Bindings.get?], List.nodup_nil⟩

namespace Represents

theorem isBound (h : β.Represents σ) (i : Nat) : β.isBound i = σ.isBound i := by
  rw [Bindings.isBound, h.get?, Subst.isBound]

theorem size (h : β.Represents σ) : β.size = σ.size := by
  have hlength := congrArg List.length h.trail
  simpa [Bindings.size, Subst.toList, Subst.size_eq_length_trail] using hlength

theorem isEmpty (h : β.Represents σ) : β.isEmpty = σ.isEmpty := by
  have hsize := h.size
  rw [Bindings.size, Subst.size_eq_length_trail] at hsize
  rw [Bool.eq_iff_iff, Bindings.isEmpty, Subst.isEmpty, Array.isEmpty_iff_size_eq_zero, hsize,
    List.isEmpty_iff_length_eq_zero]

theorem toList (h : β.Represents σ) : β.toList = σ.toList := by
  rw [Bindings.toList, h.trail, List.filterMap_map]
  refine (List.filterMap_congr fun b hb => ?_).trans (List.filterMap_some ..)
  obtain ⟨i, t⟩ := b
  have hi : σ.get? i = some t := Subst.get?_of_mem_trail h.nodup (by simpa [Subst.toList] using hb)
  simp [h.get?, hi]

end Represents

theorem foldl_bind (σ : Subst) (bs : List (Nat × Term)) :
    (bs.foldl (fun σ b => σ.bind b.1 b.2) σ).toList = σ.toList ++ bs := by
  induction bs generalizing σ with
  | nil => simp
  | cons b bs ih => simp [ih]

theorem Represents.toSubst (h : β.Represents σ) : β.toSubst = σ := by
  apply Subst.trail_injective
  have hlist : β.toSubst.toList = σ.toList := by
    rw [Bindings.toSubst, foldl_bind, h.toList]
    rfl
  simpa [Subst.toList] using hlist

/-! ## Binding and rolling back -/

theorem Represents.bind (h : β.Represents σ) (hi : σ.get? i = none) (t : Term) :
    (β.bind i t).Represents (σ.bind i t) where
  trail := by simp [Bindings.bind, h.trail]
  get? j := by
    by_cases hj : j = i
    · subst hj
      simp
    · rw [get?_bind_of_ne β hj, Subst.get?_bind_of_ne σ hj, h.get?]
  nodup := List.nodup_cons.2 ⟨Subst.get?_eq_none_iff.1 hi, h.nodup⟩

/-- The latest binding is taken back. That its entry is cleared does no harm, because no earlier
binding is of the same placeholder. -/
theorem Represents.pop (h : β.Represents (σ.bind i t)) :
    Represents ⟨β.table.setIfInBounds i none, β.trail.pop⟩ σ where
  trail := by simp [h.trail]
  get? j := by
    change (β.clear i).get? j = σ.get? j
    by_cases hj : j = i
    · subst hj
      rw [get?_clear_self, eq_comm, Subst.get?_eq_none_iff]
      exact (List.nodup_cons.1 h.nodup).1
    · rw [get?_clear_of_ne β hj, h.get?, Subst.get?_bind_of_ne σ hj]
  nodup := (List.nodup_cons.1 h.nodup).2

theorem Represents.rollback (h : β.Represents σ) (mark : Nat) :
    (β.rollback mark).Represents (σ.rollback mark) := by
  induction σ generalizing β with
  | empty =>
    have hsize : ¬ mark < β.trail.size := by
      have := h.size
      simp only [Bindings.size, Subst.size] at this
      omega
    rw [Bindings.rollback, dif_neg hsize, Subst.rollback_of_size_le (by simp [Subst.size])]
    exact h
  | bind σ i t ih =>
    have hsize : β.trail.size = σ.size + 1 := h.size.trans (Subst.size_bind σ i t)
    rw [Bindings.rollback]
    by_cases hmark : mark < β.trail.size
    · have hback : β.trail.back (by omega) = i := by
        have hlast := h.trail
        rw [Subst.toList_bind, List.map_append] at hlast
        simp [← Array.getLast_toList, hlast]
      rw [dif_pos hmark]
      simp only [hback]
      rw [Subst.rollback_bind (by omega)]
      exact ih h.pop
    · rw [dif_neg hmark, Subst.rollback_of_size_le (by rw [Subst.size_bind]; omega)]
      exact h

/-! ## Following bindings -/

namespace Represents

theorem walkFor (h : β.Represents σ) (rest : Subst) (t : Term) :
    β.walkFor rest.size t = σ.walkFor rest t := by
  induction rest generalizing t with
  | empty => cases t <;> simp [Subst.size, Bindings.walkFor, Subst.walkFor]
  | bind rest i u ih =>
    cases t with
    | var j =>
      rw [Subst.size_bind, Bindings.walkFor, Subst.walkFor, h.get?]
      cases σ.get? j with
      | none => rfl
      | some v => exact ih v
    | _ => simp [Bindings.walkFor, Subst.walkFor]

theorem walk (h : β.Represents σ) (t : Term) : β.walk t = σ.walk t := by
  rw [Bindings.walk, h.size, h.walkFor, Subst.walk]

theorem resolveFor (h : β.Represents σ) (rest : Subst) (t : Term) :
    β.resolveFor rest.size t = σ.resolveFor rest t := by
  induction rest generalizing t with
  | empty => simp [Subst.size, Bindings.resolveFor, Subst.resolveFor]
  | bind rest i u ih =>
    rw [Subst.size_bind, Bindings.resolveFor, Subst.resolveFor]
    congr 1
    funext j
    rw [h.get?]
    cases σ.get? j with
    | none => rfl
    | some v => exact ih v

theorem resolve (h : β.Represents σ) (t : Term) : β.resolve t = σ.resolve t := by
  rw [Bindings.resolve, Subst.resolve, h.isEmpty, h.size, h.resolveFor]
  cases σ with
  | empty => rfl
  | bind σ i u => rfl

theorem reachesFor (h : β.Represents σ) (p : Nat → Bool) (rest : Subst) (t : Term) :
    β.reachesFor p rest.size t = σ.reachesFor p rest t := by
  induction rest generalizing t with
  | empty => simp [Subst.size, Bindings.reachesFor, Subst.reachesFor, h.isBound]
  | bind rest i u ih =>
    rw [Subst.size_bind, Bindings.reachesFor, Subst.reachesFor]
    congr 1
    funext j
    rw [h.get?]
    cases σ.get? j with
    | none => rfl
    | some v => exact ih v

theorem occurs (h : β.Represents σ) (i : Nat) (t : Term) : β.occurs i t = σ.occurs i t := by
  rw [Bindings.occurs, h.size, h.reachesFor, Subst.occurs]

end Represents

/-! ## Unification -/

/-- What an attempt to make terms equal comes to in place, and what it comes to for the trail. At a
clash the bindings made until then stand in place, where the trail has nothing to show. -/
inductive Attempts (σ : Subst) : Bool × Bindings → Option Subst → Prop
  | equal {γ : Bindings} {τ : Subst} (hle : σ ≤ τ) (h : γ.Represents τ) :
      Attempts σ (true, γ) (some τ)
  | clash {γ : Bindings} {τ : Subst} (hle : σ ≤ τ) (h : γ.Represents τ) : Attempts σ (false, γ) none

namespace Attempts

variable {r : Bool × Bindings} {o : Option Subst}

theorem refuse (h : β.Represents σ) : Attempts σ (false, β) none := .clash (Subst.le_refl σ) h

theorem nothing (h : β.Represents σ) : Attempts σ (true, β) (some σ) := .equal (Subst.le_refl σ) h

theorem of_le (h : Attempts τ r o) (hle : σ ≤ τ) : Attempts σ r o := by
  cases h with
  | equal hle' h => exact .equal (Subst.le_trans hle hle') h
  | clash hle' h => exact .clash (Subst.le_trans hle hle') h

/-- However the attempt ends, a later stage of the trail is shown. -/
theorem left (h : Attempts σ r o) : ∃ τ, σ ≤ τ ∧ r.2.Represents τ := by
  cases h with
  | equal hle h => exact ⟨_, hle, h⟩
  | clash hle h => exact ⟨_, hle, h⟩

theorem andThen {next : Bindings → Bool × Bindings} {next' : Subst → Option Subst}
    (h : Attempts σ r o) (hnext : ∀ γ τ, γ.Represents τ → Attempts τ (next γ) (next' τ)) :
    Attempts σ (andThen r next) (o.bind next') := by
  cases h with
  | equal hle h => exact (hnext _ _ h).of_le hle
  | clash hle h => exact .clash hle h

theorem bindNew (h : β.Represents σ) (i : Nat) (t : Term) :
    Attempts σ (β.bindNew i t) (σ.bindNew? i t) := by
  rw [Bindings.bindNew, Subst.bindNew?, h.isBound]
  split
  · exact .refuse h
  · next hi => exact .equal (Subst.le_bind σ i t) (h.bind (by simpa [Subst.isBound] using hi) t)

theorem assign (h : β.Represents σ) (i : Nat) (t : Term) :
    Attempts σ (β.assign i t) (σ.assign? i t) := by
  rw [Bindings.assign, Subst.assign?, h.occurs]
  split
  · exact .refuse h
  · exact .bindNew h i t

theorem fill (h : β.Represents σ) (i : Nat) (t : Term) :
    Attempts σ (β.fill i t) (σ.fill? i t) := by
  cases t with
  | var j =>
    simp only [Bindings.fill, Subst.fill?]
    split
    · exact .nothing h
    · split <;> exact .bindNew h _ _
  | app f xs => exact .assign h i _
  | cases s arms => exact .assign h i _

end Attempts

/-- The two ways of making terms equal go together in all states. -/
def Follows (follow : Term → Term → Bindings → Bool × Bindings)
    (follow' : Term → Term → Subst → Option Subst) : Prop :=
  ∀ a b β σ, β.Represents σ → Attempts σ (follow a b β) (follow' a b σ)

section Descend

variable {follow : Term → Term → Bindings → Bool × Bindings}
  {follow' : Term → Term → Subst → Option Subst}

mutual
theorem descend_attempts (hfollow : Follows follow follow') :
    (a : Term) → ∀ b β σ, β.Represents σ →
      Attempts σ (descend follow a b β) (Subst.descend follow' a b σ)
  | .var i, b, β, σ, h => by
    rw [descend, Subst.descend, h.get?, h.walk]
    cases σ.get? i with
    | none => exact .fill h i _
    | some t => exact hfollow t b β σ h
  | .app f xs, b, β, σ, h => by
    rw [descend, Subst.descend, h.walk]
    split
    · exact .nothing h
    · cases σ.walk b with
      | var j => exact .assign h j _
      | app g ys =>
        dsimp only
        split
        · exact descendAll_attempts hfollow xs ys β σ h
        · exact .refuse h
      | cases t ys => exact .refuse h
  | .cases s xs, b, β, σ, h => by
    rw [descend, Subst.descend, h.walk]
    split
    · exact .nothing h
    · cases σ.walk b with
      | var j => exact .assign h j _
      | app g ys => exact .refuse h
      | cases t ys =>
        dsimp only
        split
        · exact (descendArms_attempts hfollow xs ys β σ h).andThen (descend_attempts hfollow s t)
        · exact .refuse h

theorem descendAll_attempts (hfollow : Follows follow follow') :
    (xs : List Term) → ∀ ys β σ, β.Represents σ →
      Attempts σ (descendAll follow xs ys β) (Subst.descendAll follow' xs ys σ)
  | [], ys, β, σ, h => by
    rw [descendAll, Subst.descendAll]
    · exact .nothing h
    · simp
    · simp
  | x :: xs, [], β, σ, h => .nothing h
  | x :: xs, y :: ys, β, σ, h =>
    (descendAll_attempts hfollow xs ys β σ h).andThen (descend_attempts hfollow x y)

theorem descendArms_attempts (hfollow : Follows follow follow') :
    (xs : List (Arm Term)) → ∀ ys β σ, β.Represents σ →
      Attempts σ (descendArms follow xs ys β) (Subst.descendArms follow' xs ys σ)
  | [], ys, β, σ, h => by
    rw [descendArms, Subst.descendArms]
    · exact .nothing h
    · simp
    · simp
  | ⟨_, _, x⟩ :: xs, [], β, σ, h => .nothing h
  | ⟨_, _, x⟩ :: xs, y :: ys, β, σ, h =>
    (descendArms_attempts hfollow xs ys β σ h).andThen (descend_attempts hfollow x y.body)
end

end Descend

theorem unifyFor_attempts (budget : Budget) : Follows (unifyFor budget) (Subst.unifyFor budget) := by
  induction budget with
  | spent => exact fun a => descend_attempts (fun _ _ _ _ h => .refuse h) a
  | more rest ih => exact fun a => descend_attempts (ih ()) a

/-- In place two terms are made equal if they are on the trail, and with the same bindings. -/
theorem Represents.descendRoot (h : β.Represents σ) (a b : Term) :
    Attempts σ (β.descendRoot a b) (σ.unify a b) := by
  rw [Bindings.descendRoot, h.toSubst]
  exact unifyFor_attempts _ a b β σ h

/-- A unification that fails is back at where it started. -/
theorem Represents.unify (h : β.Represents σ) (a b : Term) :
    (∃ τ, σ.unify a b = some τ ∧ (β.unify a b).1 = true ∧ (β.unify a b).2.Represents τ) ∨
      σ.unify a b = none ∧ (β.unify a b).1 = false ∧ (β.unify a b).2.Represents σ := by
  have hattempts := h.descendRoot a b
  unfold Bindings.unify
  generalize β.descendRoot a b = r at hattempts ⊢
  generalize σ.unify a b = o at hattempts ⊢
  cases hattempts with
  | equal hle h => exact .inl ⟨_, rfl, rfl, h⟩
  | @clash γ τ hle hγ =>
    refine .inr ⟨rfl, rfl, ?_⟩
    have hback := hγ.rollback β.size
    rw [h.size, Subst.rollback_of_le hle, ← h.size] at hback
    exact hback

end Bindings

end Monotonicity
