import Monotonicity.Proofs.Search.Course

/-!
# Placeholders along a trace

A state is apart if the placeholders that occur in it have all been given out. A placeholder that is
given out next is then different from all of them, so that these are the states from which nothing
new can clash with anything old.

The trace of a run lists the states that a search comes to, those included that it takes back, and
the blocks of placeholders that it sets aside. The indices rise along it.
-/

namespace Monotonicity

variable {V W : Nat → Prop} {s t : State}

/-! ## Placeholders of states -/

/-- Only placeholders of the set occur in the bindings, on either side. -/
def Subst.Over (V : Nat → Prop) (σ : Subst) : Prop := ∀ b ∈ σ.trail, V b.1 ∧ b.2.Over V

/-- Only placeholders of the set occur in the obligation. -/
structure Pending.Over (V : Nat → Prop) (p : Pending) : Prop where
  goal : p.goal.Over V
  hyps : ∀ h ∈ p.hyps, h.Over V

/-- Only placeholders of the set occur in the state: in its bindings, in the hypotheses in scope, in
the goals in progress and in what was put off. -/
structure State.Only (V : Nat → Prop) (s : State) : Prop where
  subst : s.subst.Over V
  hyps : ∀ h ∈ s.hyps, h.Over V
  active : ∀ g ∈ s.active, g.Over V
  delayed : ∀ p ∈ s.delayed, p.Over V

/-- The placeholders that have been given out. -/
def State.used (s : State) (i : Nat) : Prop := i < s.ledger.nextVar

/-- All placeholders that occur in the state have been given out, and none of them reaches itself
through the bindings. -/
structure State.Apart (s : State) : Prop where
  acyclic : s.subst.Acyclic
  only : s.Only s.used

theorem Term.Over.mono {u : Term} (h : u.Over V) (hVW : ∀ i, V i → W i) : u.Over W :=
  fun i hi => hVW i (h i hi)

theorem Goal.Over.mono {g : Goal} (h : g.Over V) (hVW : ∀ i, V i → W i) : g.Over W :=
  fun u hu => (h u hu).mono hVW

theorem Proof.Over.mono {p : Proof} (h : p.Over V) (hVW : ∀ i, V i → W i) : p.Over W :=
  fun w hw => (h w hw).mono hVW

theorem Hypothesis.Over.mono {h : Hypothesis} (hh : h.Over V) (hVW : ∀ i, V i → W i) : h.Over W :=
  ⟨hh.rel.mono hVW, hh.left.mono hVW, hh.right.mono hVW, hh.witness.mono hVW⟩

theorem State.Only.mono (h : s.Only V) (hVW : ∀ i, V i → W i) : s.Only W where
  subst b hb := ⟨hVW _ (h.subst b hb).1, (h.subst b hb).2.mono hVW⟩
  hyps x hx := (h.hyps x hx).mono hVW
  active g hg := (h.active g hg).mono hVW
  delayed p hp :=
    ⟨(h.delayed p hp).goal.mono hVW, fun x hx => ((h.delayed p hp).hyps x hx).mono hVW⟩

namespace Subst.Over

variable {σ τ : Subst} {a b : Term}

theorem within (hσ : σ.Over V) : σ.Within (Term.Over V) :=
  fun _ _ _ h => (hσ _ (mem_trail_of_get? h)).2

theorem rollback (hσ : σ.Over V) (mark : Nat) : (σ.rollback mark).Over V := by
  intro b hb
  rw [Subst.rollback, trail_dropLast] at hb
  exact hσ b (List.mem_of_mem_drop hb)

/-- Unification binds placeholders that occur in its terms or in the bindings, to such terms. -/
theorem unify (hσ : σ.Over V) (hacyclic : σ.Acyclic) (ha : a.Over V) (hb : b.Over V)
    (h : σ.unify a b = some τ) : τ.Over V := by
  have hconfined := hσ.within.unify Term.stable_over ha hb h
  rintro ⟨i, u⟩ hmem
  have hget := get?_of_mem_trail ((unify_gains h).acyclic hacyclic).nodup hmem
  have hi : V i := by
    by_contra hi
    have hold := hconfined.outside i fun hvar => hi (Term.over_var.1 hvar)
    exact hi (hσ _ (mem_trail_of_get? (hold.symm.trans hget))).1
  exact ⟨hi, hconfined.within i u (Term.over_var.2 hi) hget⟩

end Subst.Over

/-! ## States that are apart -/

/-- What comes later in a search: as many placeholders or more have been given out, and the state is
apart. -/
structure State.Leads (s t : State) : Prop where
  le : s.ledger.nextVar ≤ t.ledger.nextVar
  apart : t.Apart

namespace State

variable {goal : Goal} {further : List Hypothesis}

theorem Apart.leads (h : s.Apart) : s.Leads s := ⟨Nat.le_refl _, h⟩

theorem Leads.trans {u : State} (h : s.Leads t) (h' : t.Leads u) : s.Leads u :=
  ⟨Nat.le_trans h.le h'.le, h'.apart⟩

theorem Leads.used (h : s.Leads t) (i : Nat) (hi : s.used i) : t.used i :=
  Nat.lt_of_lt_of_le hi h.le

theorem Apart.walk {u : Term} (h : s.Apart) (hu : u.Over s.used) : (s.subst.walk u).Over s.used :=
  h.only.subst.within.walk hu

theorem Apart.resolve {u : Term} (h : s.Apart) (hu : u.Over s.used) :
    (s.subst.resolve u).Over s.used :=
  h.only.subst.within.resolve Term.stable_over hu

/-- The parts that are seen of a relation. -/
theorem Apart.view {rel u : Term} {v : View} (h : s.Apart) (hrel : rel.Over s.used)
    (hv : s.subst.view rel = v) (hu : u ∈ v.parts) : u.Over s.used :=
  h.only.subst.within.of_mem_parts Term.stable_over hrel (hv ▸ hu)

/-- The ledger may advance. -/
theorem Apart.advance (h : s.Apart) {l : Ledger} (hl : s.ledger.nextVar ≤ l.nextVar) :
    s.Leads { s with ledger := l } where
  le := hl
  apart := by
    have honly : s.Only ({ s with ledger := l } : State).used :=
      h.only.mono fun i hi => Nat.lt_of_lt_of_le hi hl
    exact ⟨h.acyclic, honly.subst, honly.hyps, honly.active, honly.delayed⟩

theorem Apart.undo (h : s.Apart) (m : Mark) : (s.undo m).Apart where
  acyclic := by
    refine h.acyclic.of_le ?_
    rw [Subst.le_def, State.undo, Subst.rollback, Subst.trail_dropLast]
    exact List.drop_suffix ..
  only :=
    { subst := h.only.subst.rollback m.subst
      hyps := fun x hx => h.only.hyps x (List.mem_of_mem_take hx)
      active := h.only.active
      delayed := fun p hp => h.only.delayed p (List.mem_of_mem_take hp) }

theorem Apart.assume (h : s.Apart) (hfurther : ∀ x ∈ further, x.Over s.used) :
    (s.assume further).Apart where
  acyclic := h.acyclic
  only := { h.only with
    hyps := fun x hx => (List.mem_append.1 hx).elim (h.only.hyps x) (hfurther x) }

theorem Apart.withdraw (h : s.Apart) (n : Nat) : (s.withdraw n).Apart where
  acyclic := h.acyclic
  only := { h.only with hyps := fun x hx => h.only.hyps x (List.mem_of_mem_take hx) }

theorem Apart.enter (h : s.Apart) (hgoal : goal.Over s.used) : (s.enter goal).Apart where
  acyclic := h.acyclic
  only := { h.only with active := List.forall_mem_cons.2 ⟨hgoal, h.only.active⟩ }

theorem Apart.leave (h : s.Apart) : s.leave.Apart where
  acyclic := h.acyclic
  only := { h.only with active := fun g hg => h.only.active g (List.mem_of_mem_tail hg) }

end State

/-! ## Events -/

namespace Event

/-- The first placeholder that is unused before the event. -/
def first : Event → Nat
  | state s => s.ledger.nextVar
  | reserve s _ => s.ledger.nextVar

/-- The first placeholder that is unused after the event. -/
def next : Event → Nat
  | state s => s.ledger.nextVar
  | reserve s count => s.ledger.nextVar + count

/-- The state is apart, and the placeholders set aside have indices. -/
def Apart : Event → Prop
  | state s => s.Apart
  | reserve s count => s.Apart ∧ s.ledger.nextVar + count < indexBound

theorem first_le_next (e : Event) : e.first ≤ e.next := by cases e <;> simp [first, next]

end Event

/-- Along the events, from one index to another, placeholders are given out and never given back. -/
def Rising : Nat → List Event → Nat → Prop
  | lo, [], hi => lo ≤ hi
  | lo, e :: h, hi => lo ≤ e.first ∧ Rising e.next h hi

namespace Rising

variable {lo mid hi : Nat} {e : Event} {h h' : List Event}

theorem le (hh : Rising lo h hi) : lo ≤ hi := by
  induction h generalizing lo with
  | nil => exact hh
  | cons e h ih => exact Nat.le_trans hh.1 (Nat.le_trans e.first_le_next (ih hh.2))

theorem append (hh : Rising lo h mid) (hh' : Rising mid h' hi) : Rising lo (h ++ h') hi := by
  induction h generalizing lo with
  | nil =>
    have hle : lo ≤ mid := hh
    cases h' with
    | nil => exact Nat.le_trans hle hh'
    | cons e h' => exact ⟨Nat.le_trans hle hh'.1, hh'.2⟩
  | cons e h ih => exact ⟨hh.1, ih hh.2⟩

/-- Nothing is given out below the index at which the events begin. -/
theorem le_first (hh : Rising lo h hi) (he : e ∈ h) : lo ≤ e.first := by
  induction h generalizing lo with
  | nil => cases he
  | cons e' h ih =>
    rcases List.mem_cons.1 he with rfl | he
    · exact hh.1
    · exact Nat.le_trans hh.1 (Nat.le_trans e'.first_le_next (ih hh.2 he))

end Rising

theorem Outcome.rising_events {α : Type} (o : Outcome α) :
    Rising o.ledger.nextVar o.events o.ledger.nextVar := by
  cases o <;> simp [events, ledger, Rising, Event.first, Event.next]

end Monotonicity
