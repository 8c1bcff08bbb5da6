import Monotonicity.Proofs.Substitution.Unifier
import Monotonicity.Search.Basic

/-!
# Growing states

What a search leaves behind has grown from what it found: bindings and obligations were added behind
those that were there, and the scope is the same. Going back to a mark after that gives back exactly
what was found, up to the ledger, which has advanced: this is `Grown.kept_undo`.
-/

namespace Monotonicity

/-- No counter is smaller. -/
instance : LE Stats :=
  ⟨fun a b => a.steps ≤ b.steps ∧ a.backtracks ≤ b.backtracks ∧ a.unifications ≤ b.unifications ∧
    a.probes ≤ b.probes ∧ a.deferrals ≤ b.deferrals ∧ a.maxDepth ≤ b.maxDepth⟩

namespace Stats

theorem le_def {a b : Stats} : a ≤ b ↔ a.steps ≤ b.steps ∧ a.backtracks ≤ b.backtracks ∧
    a.unifications ≤ b.unifications ∧ a.probes ≤ b.probes ∧ a.deferrals ≤ b.deferrals ∧
    a.maxDepth ≤ b.maxDepth :=
  Iff.rfl

theorem le_refl (a : Stats) : a ≤ a := by simp [le_def]

theorem le_trans {a b c : Stats} (h : a ≤ b) (h' : b ≤ c) : a ≤ c := by
  simp only [le_def] at *
  omega

end Stats

/-- The second ledger comes from the first by counting on: statistics, placeholder indices, minted
symbols and bridges advance, the log and the copies of terms stay. Of the bridges that were begun
those stay crossed that are. -/
structure Ledger.Advanced (l m : Ledger) : Prop where
  nextVar : l.nextVar ≤ m.nextVar
  names : l.symbols.names <:+ m.symbols.names
  minted : l.symbols.minted ≤ m.symbols.minted
  stats : l.stats ≤ m.stats
  log : m.log = l.log
  cache : m.cache = l.cache
  bridges : l.bridges ≤ m.bridges
  crossed : ∀ i < l.bridges, i ∈ l.crossed → i ∈ m.crossed

namespace Ledger.Advanced

variable {l m n : Ledger}

theorem refl (l : Ledger) : l.Advanced l :=
  ⟨le_rfl, List.suffix_refl _, le_rfl, Stats.le_refl _, rfl, rfl, le_rfl, fun _ _ => id⟩

theorem trans (h : l.Advanced m) (h' : m.Advanced n) : l.Advanced n where
  nextVar := h.nextVar.trans h'.nextVar
  names := h.names.trans h'.names
  minted := h.minted.trans h'.minted
  stats := Stats.le_trans h.stats h'.stats
  log := h'.log.trans h.log
  cache := h'.cache.trans h.cache
  bridges := h.bridges.trans h'.bridges
  crossed i hi hl := h'.crossed i (hi.trans_le h.bridges) (h.crossed i hi hl)

theorem begin (l : Ledger) : l.Advanced { l with bridges := l.bridges + 1 } :=
  { refl l with bridges := Nat.le_succ _ }

theorem cross (l : Ledger) (i : Nat) : l.Advanced { l with crossed := l.crossed.insert i } :=
  { refl l with crossed := fun _ _ => List.mem_insert_of_mem }

/-- A bridge that is over is not among those that had been begun before it. -/
theorem erase {i : Nat} (h : l.Advanced m) (hi : l.bridges ≤ i) :
    l.Advanced { m with crossed := m.crossed.erase i } :=
  { h with crossed := fun j hj hl =>
      (List.mem_erase_of_ne (by omega)).2 (h.crossed j hj hl) }

end Ledger.Advanced

namespace State

variable {s t u : State} {goal : Goal} {further : List Hypothesis}

/-- How many symbols were minted so far. -/
def minted (s : State) : Nat := s.ledger.symbols.minted

/-- What a search leaves behind has grown from what it found. -/
structure Grown (s t : State) : Prop where
  subst : s.subst ≤ t.subst
  acyclic : s.subst.Acyclic → t.subst.Acyclic
  hyps : t.hyps = s.hyps
  delayed : s.delayed <+: t.delayed
  active : t.active = s.active
  depth : t.depth = s.depth
  ledger : s.ledger.Advanced t.ledger

/-- What a search leaves behind is what it found, but for the ledger, which has advanced. -/
structure Kept (s t : State) : Prop where
  subst : t.subst = s.subst
  hyps : t.hyps = s.hyps
  delayed : t.delayed = s.delayed
  active : t.active = s.active
  depth : t.depth = s.depth
  ledger : s.ledger.Advanced t.ledger

/-- The state without the scope. -/
def bare (s : State) : State := { s with hyps := [], active := [], depth := 0 }

theorem Kept.refl (s : State) : s.Kept s := ⟨rfl, rfl, rfl, rfl, rfl, .refl _⟩

theorem Kept.trans (h : s.Kept t) (h' : t.Kept u) : s.Kept u where
  subst := h'.subst.trans h.subst
  hyps := h'.hyps.trans h.hyps
  delayed := h'.delayed.trans h.delayed
  active := h'.active.trans h.active
  depth := h'.depth.trans h.depth
  ledger := h.ledger.trans h'.ledger

theorem Kept.grown (h : s.Kept t) : s.Grown t where
  subst := h.subst ▸ Subst.le_refl _
  acyclic := by rw [h.subst]; exact id
  hyps := h.hyps
  delayed := h.delayed ▸ List.prefix_refl _
  active := h.active
  depth := h.depth
  ledger := h.ledger

/-- After a bridge it is no longer written down whether it was crossed. -/
theorem Kept.erase {i : Nat} (h : s.Kept t) (hi : s.ledger.bridges ≤ i) :
    s.Kept { t with ledger := { t.ledger with crossed := t.ledger.crossed.erase i } } :=
  { h with ledger := h.ledger.erase hi }

namespace Grown

theorem refl (s : State) : s.Grown s := (Kept.refl s).grown

theorem trans (h : s.Grown t) (h' : t.Grown u) : s.Grown u where
  subst := Subst.le_trans h.subst h'.subst
  acyclic hs := h'.acyclic (h.acyclic hs)
  hyps := h'.hyps.trans h.hyps
  delayed := h.delayed.trans h'.delayed
  active := h'.active.trans h.active
  depth := h'.depth.trans h.depth
  ledger := h.ledger.trans h'.ledger

theorem minted (h : s.Grown t) : s.minted ≤ t.minted := h.ledger.minted

/-- Taking back what was done after a mark gives back what was there. -/
theorem kept_undo (h : s.Grown t) : s.Kept (t.undo s.mark) where
  subst := Subst.rollback_of_le h.subst
  hyps := by simp [undo, mark, h.hyps]
  delayed := (List.prefix_iff_eq_take.1 h.delayed).symm
  active := h.active
  depth := h.depth
  ledger := h.ledger

theorem erase {i : Nat} (h : s.Grown t) (hi : s.ledger.bridges ≤ i) :
    s.Grown { t with ledger := { t.ledger with crossed := t.ledger.crossed.erase i } } :=
  { h with ledger := h.ledger.erase hi }

/-! ## Scopes -/

/-- Hypotheses put into scope for a search are out of scope after it. -/
theorem of_assume (h : (s.assume further).Grown t) : s.Grown (t.withdraw s.hyps.length) where
  subst := h.subst
  acyclic := h.acyclic
  hyps := by simp [withdraw, h.hyps, assume]
  delayed := h.delayed
  active := h.active
  depth := h.depth
  ledger := h.ledger

/-- What a continuation finds when the hypotheses are withdrawn, and leaves when they are put back.
-/
theorem assume_drop (hs : (s.assume further).Grown t) (h : (t.withdraw s.hyps.length).Grown u) :
    t.Grown ((u.withdraw s.hyps.length).assume (t.hyps.drop s.hyps.length)) where
  subst := h.subst
  acyclic := h.acyclic
  hyps := by simp [withdraw, assume, h.hyps, hs.hyps]
  delayed := h.delayed
  active := h.active
  depth := h.depth
  ledger := h.ledger

/-- A goal put in progress for a search is no longer so after it. -/
theorem of_enter (h : (s.enter goal).Grown t) : s.Grown t.leave where
  subst := h.subst
  acyclic := h.acyclic
  hyps := h.hyps
  delayed := h.delayed
  active := by simp [leave, h.active, enter]
  depth := by simp [leave, h.depth, enter]
  ledger := h.ledger

theorem enter_leave (hs : (s.enter goal).Grown t) (h : t.leave.Grown u) :
    t.Grown (u.enter goal) where
  subst := h.subst
  acyclic := h.acyclic
  hyps := h.hyps
  delayed := h.delayed
  active := by simp [enter, h.active, leave, hs.active]
  depth := by simp [enter, h.depth, leave, hs.depth]
  ledger := h.ledger

end Grown

theorem Grown.assume (h : s.Grown t) (further : List Hypothesis) :
    (s.assume further).Grown (t.assume further) :=
  { h with hyps := by simp [State.assume, h.hyps] }

theorem Kept.of_assume (h : (s.assume further).Kept t) : s.Kept (t.withdraw s.hyps.length) where
  subst := h.subst
  hyps := by simp [withdraw, h.hyps, assume]
  delayed := h.delayed
  active := h.active
  depth := h.depth
  ledger := h.ledger

theorem Kept.of_enter (h : (s.enter goal).Kept t) : s.Kept t.leave where
  subst := h.subst
  hyps := h.hyps
  delayed := h.delayed
  active := by simp [leave, h.active, enter]
  depth := by simp [leave, h.depth, enter]
  ledger := h.ledger

theorem Kept.enter_leave (hs : (s.enter goal).Kept t) (h : t.leave.Kept u) :
    t.Kept (u.enter goal) where
  subst := h.subst
  hyps := h.hyps
  delayed := h.delayed
  active := by simp [enter, h.active, leave, hs.active]
  depth := by simp [enter, h.depth, leave, hs.depth]
  ledger := h.ledger

end State

end Monotonicity
