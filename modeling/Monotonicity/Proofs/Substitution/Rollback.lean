import Mathlib.Data.List.Nodup
import Monotonicity.Proofs.Substitution.Bindings

/-!
# Going back to a checkpoint

A checkpoint is the length of the trail at the moment it is taken. What is done after it binds
placeholders that have no binding, by hand or in a unification, and goes back to checkpoints taken
since. None of this touches the entries of the placeholders that were on the trail, so going back to
the checkpoint gives the bindings of that moment: `rollback_restores`. Throughout, the table and the
trail are in step.

It does not matter whether bindings run in a circle, as those made by hand may. It does matter that
no placeholder is bound that has a binding.
-/

namespace Monotonicity

theorem Subst.size_le {σ τ : Subst} (h : σ ≤ τ) : σ.size ≤ τ.size := by
  rw [size_eq_length_trail, size_eq_length_trail]
  exact (le_def.1 h).length_le

/-- A stage is still a stage after going back to a checkpoint that is not before it. -/
theorem Subst.le_rollback {σ τ : Subst} {mark : Nat} (h : σ ≤ τ) (hmark : σ.size ≤ mark) :
    σ ≤ τ.rollback mark := by
  obtain ⟨new, hnew⟩ := h
  have hdrop : τ.size - mark ≤ new.length := by
    have hsize := congrArg List.length hnew
    rw [List.length_append] at hsize
    rw [size_eq_length_trail] at hmark ⊢
    omega
  rw [le_def, rollback, trail_dropLast, ← hnew, List.drop_append_of_le_length hdrop]
  exact List.suffix_append _ _

namespace Bindings

variable {β γ : Bindings} {σ : Subst} {marks : List Nat}

/-- Nothing that can be asked of the bindings tells them apart. -/
structure Looks (β γ : Bindings) : Prop where
  get? : ∀ i, β.get? i = γ.get? i
  toList : β.toList = γ.toList
  size : β.size = γ.size
  isEmpty : β.isEmpty = γ.isEmpty
  walk : ∀ t, β.walk t = γ.walk t
  resolve : ∀ t, β.resolve t = γ.resolve t

theorem Represents.looks (h : β.Represents σ) (h' : γ.Represents σ) : β.Looks γ where
  get? i := (h.get? i).trans (h'.get? i).symm
  toList := h.toList.trans h'.toList.symm
  size := h.size.trans h'.size.symm
  isEmpty := h.isEmpty.trans h'.isEmpty.symm
  walk t := (h.walk t).trans (h'.walk t).symm
  resolve t := (h.resolve t).trans (h'.resolve t).symm

/-- The trail lists the placeholders with an entry in the table, each of them once, and going through
it gives their entries. -/
structure InStep (β : Bindings) : Prop where
  nodup : β.trail.toList.Nodup
  listed : ∀ i, i ∈ β.trail.toList ↔ β.isBound i = true
  entries : ∀ i t, (i, t) ∈ β.toList ↔ β.get? i = some t

theorem Represents.inStep (h : β.Represents σ) : β.InStep where
  nodup := by
    rw [h.trail, Subst.toList, List.map_reverse]
    exact List.nodup_reverse.2 h.nodup
  listed i := by
    rw [h.trail, Subst.toList, List.map_reverse, List.mem_reverse, h.isBound, Subst.isBound,
      Option.isSome_iff_ne_none, Ne, Subst.get?_eq_none_iff, not_not]
  entries i t := by
    rw [h.toList, h.get?, Subst.toList, List.mem_reverse]
    exact ⟨Subst.get?_of_mem_trail h.nodup, Subst.mem_trail_of_get?⟩

/-- What is done from `β` on leads to `γ`, and `marks` are the checkpoints taken since, the first of
them at `β` itself. A unification that failed may be left as it was at the clash; it has taken a
checkpoint of its own at its start. -/
inductive Later (β : Bindings) : List Nat → Bindings → Prop
  | start : Later β [β.size] β
  | bind {marks : List Nat} {γ : Bindings} {i : Nat} (h : Later β marks γ) (hi : γ.get? i = none)
      (t : Term) : Later β marks (γ.bind i t)
  | unify {marks : List Nat} {γ : Bindings} (h : Later β marks γ) (a b : Term) :
      Later β marks (γ.unify a b).2
  | clash {marks : List Nat} {γ : Bindings} (h : Later β marks γ) (a b : Term) :
      Later β (γ.size :: marks) (γ.descendRoot a b).2
  | checkpoint {marks : List Nat} {γ : Bindings} (h : Later β marks γ) :
      Later β (γ.size :: marks) γ
  | rollback {marks : List Nat} {γ : Bindings} {mark : Nat} (h : Later β marks γ)
      (hmark : mark ∈ marks) : Later β marks (γ.rollback mark)

/-- Whatever is done, the bindings show a later stage of the trail that they showed, and no
checkpoint taken since is before it. -/
theorem Later.represents (hβ : β.Represents σ) (h : Later β marks γ) :
    (∃ τ, σ ≤ τ ∧ γ.Represents τ) ∧ ∀ mark ∈ marks, σ.size ≤ mark := by
  induction h with
  | start => exact ⟨⟨σ, Subst.le_refl σ, hβ⟩, by simp [hβ.size]⟩
  | bind _ hi t ih =>
    obtain ⟨⟨τ, hle, hγ⟩, hmarks⟩ := ih
    have hbound := hγ.bind ((hγ.get? _).symm.trans hi) t
    exact ⟨⟨_, Subst.le_trans hle (Subst.le_bind τ _ t), hbound⟩, hmarks⟩
  | unify _ a b ih =>
    obtain ⟨⟨τ, hle, hγ⟩, hmarks⟩ := ih
    rcases hγ.unify a b with ⟨υ, hunify, -, hυ⟩ | ⟨-, -, hτ⟩
    · exact ⟨⟨υ, Subst.le_trans hle (Subst.unify_gains hunify).le, hυ⟩, hmarks⟩
    · exact ⟨⟨τ, hle, hτ⟩, hmarks⟩
  | clash _ a b ih =>
    obtain ⟨⟨τ, hle, hγ⟩, hmarks⟩ := ih
    obtain ⟨υ, hυ, hleft⟩ := (hγ.descendRoot a b).left
    refine ⟨⟨υ, Subst.le_trans hle hυ, hleft⟩, List.forall_mem_cons.2 ⟨?_, hmarks⟩⟩
    exact hγ.size ▸ Subst.size_le hle
  | checkpoint _ ih =>
    obtain ⟨⟨τ, hle, hγ⟩, hmarks⟩ := ih
    exact ⟨⟨τ, hle, hγ⟩, List.forall_mem_cons.2 ⟨hγ.size ▸ Subst.size_le hle, hmarks⟩⟩
  | rollback _ hmark ih =>
    obtain ⟨⟨τ, hle, hγ⟩, hmarks⟩ := ih
    exact ⟨⟨_, Subst.le_rollback hle (hmarks _ hmark), hγ.rollback _⟩, hmarks⟩

/-- `rollback` to a `checkpoint` gives the bindings of the moment it was taken, whatever was done
since; and at every moment the table and the trail are in step. In particular a unification that
fails leaves the bindings as they were, wherever it had got to. All the while the bindings show a
trail that only grows, and making terms equal in place comes to what it comes to on that trail. -/
theorem rollback_restores {before since : List Nat} (hβ : Later {} before β)
    (h : Later β since γ) :
    (γ.rollback β.size).Looks β ∧ γ.InStep ∧
    (∀ a b, (γ.unify a b).1 = false → (γ.unify a b).2.Looks γ) ∧
    ∃ σ τ, σ ≤ τ ∧ β.Represents σ ∧ γ.Represents τ ∧ ∀ a b,
      (γ.unify a b).1 = (τ.unify a b).isSome ∧ (γ.unify a b).2.Represents ((τ.unify a b).getD τ) := by
  obtain ⟨⟨σ, -, hσ⟩, -⟩ := hβ.represents represents_empty
  obtain ⟨⟨τ, hle, hτ⟩, -⟩ := h.represents hσ
  refine ⟨?_, hτ.inStep, fun a b hfailed => ?_, σ, τ, hle, hσ, hτ, fun a b => ?_⟩
  · have hback := hτ.rollback β.size
    rw [hσ.size, Subst.rollback_of_le hle, ← hσ.size] at hback
    exact hback.looks hσ
  · rcases hτ.unify a b with ⟨υ, -, hequal, -⟩ | ⟨-, -, hsame⟩
    · exact absurd (hfailed.symm.trans hequal) Bool.false_ne_true
    · exact hsame.looks hτ
  · rcases hτ.unify a b with ⟨υ, hunify, hequal, hυ⟩ | ⟨hunify, hclash, hsame⟩
    · rw [hunify]
      exact ⟨hequal, hυ⟩
    · rw [hunify]
      exact ⟨hclash, hsame⟩

/-- With `?0` bound to `f ?1`, a checkpoint is taken. Then `?2` is bound to `g ?0` by a unification,
another one binds `?3` before it clashes and is given up, and `?1` is bound to itself by hand. Going
back to the checkpoint leaves the binding of `?0`. -/
theorem rollback_restores_circle :
    let β := ({} : Bindings).bind 0 (.app "f" [.var 1])
    let unified := (β.unify (.var 2) (.app "g" [.var 0])).2
    let clashed := (unified.descendRoot (.app "h" [.var 1, .var 3])
      (.app "h" [.app "g" [.var 2], .const "c"])).2
    let γ := (clashed.rollback unified.size).bind 1 (.var 1)
    clashed.trail = #[0, 2, 3] ∧ (∃ since, Later β since γ) ∧ γ.InStep ∧
    (γ.rollback 1).toList = [(0, .app "f" [.var 1])] ∧ (γ.rollback 1).get? 2 = none ∧
    (γ.rollback 1).resolve (.var 0) = .app "f" [.var 1] := by
  intro β unified clashed γ
  have hβ : Later {} [0] β := Later.start.bind (by decide +kernel) _
  have hclashed : Later β [unified.size, 1] clashed := (Later.start.unify _ _).clash _ _
  have hγ : Later β [unified.size, 1] γ :=
    (hclashed.rollback List.mem_cons_self).bind (by decide +kernel) _
  obtain ⟨hlooks, hstep, -⟩ := rollback_restores hβ hγ
  exact ⟨by decide +kernel, ⟨_, hγ⟩, hstep, hlooks.toList, hlooks.get? 2, hlooks.resolve _⟩

/-- A placeholder that is bound again is on the trail twice, and going back takes its earlier binding
as well. -/
example : (((({} : Bindings).bind 0 (.const "a")).bind 0 (.const "b")).rollback 1).get? 0 = none := by
  decide +kernel

end Bindings

end Monotonicity
