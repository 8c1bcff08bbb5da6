import Monotonicity.Proofs.Renaming.Goal
import Monotonicity.Proofs.Search.Ends
import Monotonicity.Search.Solver

/-!
# Searches under other names

One search mirrors another if, from states that differ by a renaming, the two end alike, with
results and states that differ by the renaming again. A shifted search may run out of placeholder
indices earlier, but only if the indices that the other one came to leave no room for the shift.

Constants are made by both searches at the same moments. That the renaming takes the new constants
of the one to those of the other is part of what makes two ledgers mirror images.
-/

namespace Monotonicity

variable {α β ρ : Type} {r : Renaming}

/-! ## States -/

/-- The second ledger is the first one under other names: the names that will be minted next are
renamed to each other, and all that is counted is the same. -/
structure Ledger.Mirror (r : Renaming) (l m : Ledger) : Prop where
  nextVar : m.nextVar = l.nextVar + r.shift
  minting : ∀ hint i, Symbols.isMarked hint = false →
    r.name (Symbols.minting hint (l.symbols.minted + i)) =
      Symbols.minting hint (m.symbols.minted + i)
  stats : m.stats = l.stats
  bridges : m.bridges = l.bridges
  crossed : m.crossed = l.crossed
  log : m.log = l.log

/-- The second state is the first one under other names. -/
structure State.Mirror (r : Renaming) (s t : State) : Prop where
  subst : t.subst = r • s.subst
  hyps : t.hyps = s.hyps.map (r • ·)
  delayed : t.delayed = s.delayed.map (r • ·)
  active : t.active = s.active.map (r • ·)
  depth : t.depth = s.depth
  ledger : s.ledger.Mirror r t.ledger

/-- The second outcome is the first one under other names, with the value changed by `f`. -/
inductive Outcome.Mirror (r : Renaming) (f : α → α) : Outcome α → Outcome α → Prop
  | success {a : α} {s t : State} (h : s.Mirror r t) : Mirror r f (.success a s) (.success (f a) t)
  | failure {why : Failure} {s t : State} (h : s.Mirror r t) :
    Mirror r f (.failure why s) (.failure (r • why) t)
  | overflow {l m : Ledger} (h : l.Mirror r m) : Mirror r f (.overflow l) (.overflow m)
  /-- Shifted indices run out earlier. -/
  | outgrown {o : Outcome α} {m : Ledger} (hshift : 0 < r.shift)
    (h : indexBound ≤ o.ledger.nextVar + r.shift) : Mirror r f o (.overflow m)

namespace State.Mirror

variable {s t s' t' : State} {goal : Goal}

theorem mark (h : s.Mirror r t) : t.mark = s.mark := by
  simp [State.mark, h.subst, h.hyps, h.delayed]

theorem undo (h : s.Mirror r t) (m : Mark) : (s.undo m).Mirror r (t.undo m) where
  subst := by simp [State.undo, h.subst]
  hyps := by simp [State.undo, h.hyps]
  delayed := by simp [State.undo, h.delayed]
  active := h.active
  depth := h.depth
  ledger := h.ledger

theorem assume (h : s.Mirror r t) (further : List Hypothesis) :
    (s.assume further).Mirror r (t.assume (further.map (r • ·))) :=
  { h with hyps := by simp [State.assume, h.hyps] }

theorem withdraw (h : s.Mirror r t) (n : Nat) : (s.withdraw n).Mirror r (t.withdraw n) :=
  { h with hyps := by simp [State.withdraw, h.hyps] }

theorem enter (h : s.Mirror r t) (goal : Goal) : (s.enter goal).Mirror r (t.enter (r • goal)) :=
  { h with
    active := by simp [State.enter, h.active]
    depth := by simp [State.enter, h.depth] }

theorem leave (h : s.Mirror r t) : s.leave.Mirror r t.leave :=
  { h with
    active := by simp [State.leave, h.active]
    depth := by simp [State.leave, h.depth] }

end State.Mirror

namespace Search

variable {f : α → α} {g : β → β} {m m' : Search α} {goal : Goal}

/-- From states that differ by the renaming, the two searches end alike, and no index that was
used is unused later. -/
structure Mirrors (r : Renaming) (f : α → α) (m m' : Search α) : Prop where
  mirror : ∀ s t, s.Mirror r t → (m.run s).Mirror r f (m'.run t)
  advances : ∀ s, s.ledger.nextVar ≤ (m.run s).ledger.nextVar

namespace Mirrors

theorem pure {a b : α} (h : b = f a) : Mirrors r f (pure a) (Pure.pure b) where
  mirror s t hst := by
    rw [h]
    exact .success hst
  advances s := Nat.le_refl _

theorem bind {k k' : α → Search β} (hm : Mirrors r f m m')
    (hk : ∀ a, Mirrors r g (k a) (k' (f a))) : Mirrors r g (m >>= k) (m' >>= k') where
  mirror s t hst := by
    have hrun := hm.mirror s t hst
    rw [run_bind, run_bind]
    generalize m.run s = o, m'.run t = o' at hrun ⊢
    cases hrun with
    | success h => exact (hk _).mirror _ _ h
    | failure h => exact .failure h
    | overflow h => exact .overflow h
    | outgrown hshift h =>
      cases o with
      | success a u =>
        exact .outgrown hshift (Nat.le_trans h (Nat.add_le_add_right ((hk a).advances u) _))
      | failure why u => exact .outgrown hshift h
      | overflow l => exact .outgrown hshift h
  advances s := by
    have hs := hm.advances s
    rw [run_bind]
    generalize m.run s = o at hs ⊢
    cases o with
    | success a t => exact Nat.le_trans hs ((hk a).advances t)
    | failure why t => exact hs
    | overflow l => exact hs

/-- Both searches decide alike. -/
theorem ite {p q : Prop} [Decidable p] [Decidable q] {n n' : Search α} (hpq : q ↔ p)
    (hm : Mirrors r f m m') (hn : Mirrors r f n n') :
    Mirrors r f (if p then m else n) (if q then m' else n') := by
  by_cases h : p
  · rwa [if_pos h, if_pos (hpq.2 h)]
  · rwa [if_neg h, if_neg fun hq => h (hpq.1 hq)]

/-! ## Failing and recovering -/

theorem fail {why : Failure} : Mirrors r f (fail why) (Search.fail (r • why)) :=
  ⟨fun _ _ hst => .failure hst, fun _ => Nat.le_refl _⟩

theorem noRule (goal : Goal) : Mirrors r f (noRule goal) (Search.noRule (r • goal)) where
  mirror s t hst := by
    simp only [Search.noRule, hst.subst, Goal.resolve_smul]
    exact .failure hst
  advances s := Nat.le_refl _

theorem noCandidate (goal : Goal) :
    Mirrors r f (noCandidate goal) (Search.noCandidate (r • goal)) where
  mirror s t hst := by
    simp only [Search.noCandidate, hst.subst, Goal.resolve_smul]
    exact .failure hst
  advances s := Nat.le_refl _

theorem gap (goal : Goal) : Mirrors r f (gap goal) (Search.gap (r • goal)) where
  mirror s t hst := by
    simp only [Search.gap, hst.subst, Goal.resolve_smul]
    exact .failure hst
  advances s := Nat.le_refl _

theorem exhausted : Mirrors r f exhausted Search.exhausted where
  mirror s t hst := by
    simp only [Search.exhausted, hst.depth, hst.ledger.stats]
    exact .failure hst
  advances s := Nat.le_refl _

/-- A value that is needed is there for both searches, or both do without it. -/
theorem require {value value' : Option α} {k k' : α → Search β} (hvalue : value' = value.map f)
    (hm : Mirrors r g (m >>= k) (m' >>= k'))
    (hk : ∀ a, value = some a → Mirrors r g (k a) (k' (f a))) :
    Mirrors r g (require value m >>= k) (Search.require value' m' >>= k') := by
  subst hvalue
  cases value with
  | none => exact hm
  | some a => exact hk a rfl

theorem failBest (hm : Mirrors r f m m') (best : Option Failure) :
    Mirrors r f (failBest m best) (Search.failBest m' (best.map (r • ·))) := by
  cases best with
  | none => exact hm
  | some why => exact fail

theorem recover {handler handler' : Failure → Search α} (hm : Mirrors r f m m')
    (hhandler : ∀ why, Mirrors r f (handler why) (handler' (r • why))) :
    Mirrors r f (m.recover handler) (m'.recover handler') where
  mirror s t hst := by
    have hrun := hm.mirror s t hst
    rw [run_recover, run_recover]
    generalize m.run s = o, m'.run t = o' at hrun ⊢
    cases hrun with
    | success h => exact .success h
    | failure h => exact (hhandler _).mirror _ _ h
    | overflow h => exact .overflow h
    | outgrown hshift h =>
      cases o with
      | success a u => exact .outgrown hshift h
      | failure why u =>
        exact .outgrown hshift (Nat.le_trans h (Nat.add_le_add_right ((hhandler why).advances u) _))
      | overflow l => exact .outgrown hshift h
  advances s := by
    have hs := hm.advances s
    rw [run_recover]
    generalize m.run s = o at hs ⊢
    cases o with
    | success a t => exact hs
    | failure why t => exact Nat.le_trans hs ((hhandler why).advances t)
    | overflow l => exact hs

theorem attempt (hm : Mirrors r f m m') : Mirrors r f (attempt m) (Search.attempt m') where
  mirror s t hst := by
    have hrun := hm.mirror s t hst
    simp only [Search.attempt, hst.mark]
    generalize m.run s = o, m'.run t = o' at hrun ⊢
    cases hrun with
    | success h => exact .success h
    | failure h => exact .failure (h.undo s.mark)
    | overflow h => exact .overflow h
    | outgrown hshift h => cases o <;> exact .outgrown hshift h
  advances s := by
    have hs := hm.advances s
    simp only [Search.attempt]
    generalize m.run s = o at hs ⊢
    cases o <;> exact hs

/-- A search in a changed state, where the changes leave the ledger alone. -/
theorem within {before after before' after' : State → State} (hm : Mirrors r f m m')
    (hbefore : ∀ s t, s.Mirror r t → (before s).Mirror r (before' t))
    (hafter : ∀ s t, s.Mirror r t → (after s).Mirror r (after' t))
    (hledger : ∀ s, (before s).ledger = s.ledger ∧ (after s).ledger = s.ledger) :
    Mirrors r f (within before after m) (Search.within before' after' m') where
  mirror s t hst := by
    have hrun := hm.mirror _ _ (hbefore s t hst)
    simp only [Search.within]
    generalize m.run (before s) = o, m'.run (before' t) = o' at hrun ⊢
    cases hrun with
    | success h => exact .success (hafter _ _ h)
    | failure h => exact .failure (hafter _ _ h)
    | overflow h => exact .overflow h
    | outgrown hshift h =>
      refine .outgrown hshift ?_
      rwa [Outcome.ledger_mapState _ fun s => (hledger s).2]
  advances s := by
    have hs := hm.advances (before s)
    rw [(hledger s).1] at hs
    simpa only [Search.within, Outcome.ledger_mapState after fun s => (hledger s).2] using hs

/-! ## Reading the state -/

theorem subst {k k' : Subst → Search β} (hk : ∀ σ, Mirrors r g (k σ) (k' (r • σ))) :
    Mirrors r g (subst >>= k) (Search.subst >>= k') where
  mirror s t hst := by
    have h := (hk s.subst).mirror s t hst
    rwa [← hst.subst] at h
  advances s := (hk s.subst).advances s

theorem hyps {k k' : List Hypothesis → Search β}
    (hk : ∀ hyps, Mirrors r g (k hyps) (k' (hyps.map (r • ·)))) :
    Mirrors r g (hyps >>= k) (Search.hyps >>= k') where
  mirror s t hst := by
    have h := (hk s.hyps).mirror s t hst
    rwa [← hst.hyps] at h
  advances s := (hk s.hyps).advances s

theorem active {k k' : List Goal → Search β}
    (hk : ∀ goals, Mirrors r g (k goals) (k' (goals.map (r • ·)))) :
    Mirrors r g (active >>= k) (Search.active >>= k') where
  mirror s t hst := by
    have h := (hk s.active).mirror s t hst
    rwa [← hst.active] at h
  advances s := (hk s.active).advances s

theorem depth {k k' : Nat → Search β} (hk : ∀ n, Mirrors r g (k n) (k' n)) :
    Mirrors r g (depth >>= k) (Search.depth >>= k') where
  mirror s t hst := by
    change ((k s.depth).run s).Mirror r g ((k' t.depth).run t)
    rw [hst.depth]
    exact (hk s.depth).mirror s t hst
  advances s := (hk s.depth).advances s

theorem ledger {k k' : Ledger → Search β}
    (hk : ∀ l l', l.Mirror r l' → Mirrors r g (k l) (k' l'))
    (hadvances : ∀ l s, s.ledger.nextVar ≤ ((k l).run s).ledger.nextVar) :
    Mirrors r g (ledger >>= k) (Search.ledger >>= k') where
  mirror s t hst := (hk s.ledger t.ledger hst.ledger).mirror s t hst
  advances s := hadvances s.ledger s

/-- Both searches find the steps used up, or neither. -/
theorem spent {T : Theory} {k k' n n' : Search β} (hk : Mirrors r g k k')
    (hn : Mirrors r g n n') :
    Mirrors r g (do if T.spent (← Search.ledger) then k else n)
      (do if T.spent (← Search.ledger) then k' else n') := by
  refine ledger (fun l l' hl => ite ?_ hk hn) fun l s => ?_
  · simp [Theory.spent, hl.stats]
  · split
    · exact hk.advances s
    · exact hn.advances s

theorem unlessSpent {T : Theory} {why : Failure} (hm : Mirrors r f m m') :
    Mirrors r f (unlessSpent T why m) (Search.unlessSpent T (r • why) m') :=
  spent fail hm

/-! ## Changing the state -/

theorem enterLedger {change change' : Ledger → Ledger}
    (h : ∀ l l', l.Mirror r l' → (change l).Mirror r (change' l'))
    (hle : ∀ l, l.nextVar ≤ (change l).nextVar) :
    Mirrors r id (enterLedger change) (Search.enterLedger change') where
  mirror _ _ hst := .success { hst with ledger := h _ _ hst.ledger }
  advances s := hle s.ledger

theorem count (change : Stats → Stats) : Mirrors r id (count change) (Search.count change) :=
  enterLedger (fun _ _ hl => { hl with stats := congrArg change hl.stats }) fun _ => Nat.le_refl _

theorem assign (hr : r.Proper) (a b : Term) :
    Mirrors r id (assign a b) (Search.assign (r • a) (r • b)) where
  mirror s t hst := by
    simp only [Search.assign, hst.subst, Subst.unify_smul hr]
    cases s.subst.unify a b with
    | none => exact .success hst
    | some σ => exact .success { hst with subst := rfl }
  advances s := by
    simp only [Search.assign]
    split <;> exact Nat.le_refl _

theorem unify (hr : r.Proper) (a b : Term) :
    Mirrors r id (unify a b) (Search.unify (r • a) (r • b)) :=
  (count _).bind fun _ => assign hr a b

/-- A choice by whether two terms can be made equal. -/
theorem ifUnify (hr : r.Proper) (a b : Term) {k k' n n' : Search β} (hk : Mirrors r g k k')
    (hn : Mirrors r g n n') :
    Mirrors r g (do if ← Search.unify a b then k else n)
      (do if ← Search.unify (r • a) (r • b) then k' else n') := by
  refine (unify hr a b).bind fun same => ?_
  cases same
  · exact hn
  · exact hk

theorem reserve (n : Nat) : Mirrors r (· + r.shift) (reserve n) (Search.reserve n) where
  mirror s t hst := by
    have hnext := hst.ledger.nextVar
    simp only [Search.reserve]
    by_cases h : t.ledger.nextVar + n < indexBound
    · rw [if_pos h, if_pos (by omega), hnext]
      refine .success { hst with ledger := { hst.ledger with nextVar := ?_ } }
      exact Nat.add_right_comm _ _ _
    · rw [if_neg h]
      by_cases hs : s.ledger.nextVar + n < indexBound
      · rw [if_pos hs]
        refine .outgrown (by omega) ?_
        simp only [Outcome.ledger]
        omega
      · rw [if_neg hs]
        exact .overflow hst.ledger
  advances s := by
    simp only [Search.reserve]
    split <;> simp [Outcome.ledger]

theorem freshVar : Mirrors r (r • ·) freshVar Search.freshVar :=
  (reserve 1).bind fun _ => pure rfl

theorem freshVars (n : Nat) :
    Mirrors r (·.map (r • ·)) (freshVars n) (Search.freshVars n) := by
  induction n with
  | zero => exact pure rfl
  | succ n ih => exact freshVar.bind fun t => ih.bind fun ts => pure rfl

theorem freshConst {hint : String} (h : Symbols.isMarked hint = false) :
    Mirrors r (r • ·) (freshConst hint) (Search.freshConst hint) := by
  refine ledger (fun l l' hl => ?_) fun l s => Nat.le_refl _
  dsimp only [Symbols.mint]
  refine bind (f := id) (enterLedger (fun _ _ hm => ?_) fun _ => Nat.le_refl _) fun _ => pure ?_
  · refine { hm with minting := fun hint i hhint => ?_ }
    simpa only [Nat.add_assoc] using hl.minting hint (1 + i) hhint
  · have hname := hl.minting hint 0 h
    simp only [Nat.add_zero] at hname
    simp [Term.const, hname]

theorem freshConsts {hint : String} (h : Symbols.isMarked hint = false) (n : Nat) :
    Mirrors r (·.map (r • ·)) (freshConsts hint n) (Search.freshConsts hint n) := by
  induction n with
  | zero => exact pure rfl
  | succ n ih => exact (freshConst h).bind fun t => ih.bind fun ts => pure rfl

theorem append (p : Pending) : Mirrors r id (append p) (Search.append (r • p)) where
  mirror s t hst := by
    simp only [Search.append, hst.delayed, List.length_map]
    exact .success { hst with delayed := by simp }
  advances s := Nat.le_refl _

theorem defer (goal : Goal) : Mirrors r (r • ·) (defer goal) (Search.defer (r • goal)) := by
  refine (count _).bind fun _ => subst fun σ => hyps fun hs => ?_
  rw [Goal.resolve_smul]
  exact (append ⟨goal.resolve σ, hs⟩).bind fun i => pure rfl

/-! ## Alternatives and bridges -/

/-- The alternatives of the one search are those of the other, changed by `c`. -/
theorem tryEach {T : Theory} {γ : Type} {c : γ → γ} {run run' : γ → Search ρ}
    {otherwise otherwise' : Option Failure → Search ρ} {g : ρ → ρ} {alternatives : List γ}
    (hrun : ∀ a ∈ alternatives, Mirrors r g (run a) (run' (c a)))
    (hotherwise : ∀ best, Mirrors r g (otherwise best) (otherwise' (best.map (r • ·))))
    (best : Option Failure) :
    Mirrors r g (tryEach T run otherwise alternatives best)
      (Search.tryEach T run' otherwise' (alternatives.map c) (best.map (r • ·))) := by
  induction alternatives generalizing best with
  | nil => exact hotherwise best
  | cons a alternatives ih =>
    rw [List.forall_mem_cons] at hrun
    refine (attempt hrun.1).recover fun why => unlessSpent ?_
    rw [Failure.orElse_smul]
    exact ih hrun.2 (some (why.orElse best))

theorem bridging {search search' : (Proof → Search ρ) → Search ρ} {k k' : Proof → Search ρ}
    {onFailure onFailure' : Bool → Failure → Search ρ} {g : ρ → ρ}
    (hsearch : ∀ k k', (∀ p, Mirrors r g (k p) (k' (r • p))) →
      Mirrors r g (search k) (search' k'))
    (hk : ∀ p, Mirrors r g (k p) (k' (r • p)))
    (hfailure : ∀ crossed why,
      Mirrors r g (onFailure crossed why) (onFailure' crossed (r • why))) :
    Mirrors r g (bridging search k onFailure) (Search.bridging search' k' onFailure') := by
  have hbegin : Mirrors r id beginBridge beginBridge := by
    refine ledger (fun l l' hl => ?_) fun l s => Nat.le_refl _
    rw [hl.bridges]
    refine bind (f := id) (enterLedger (fun _ _ hm => ?_) fun _ => Nat.le_refl _) fun _ => pure rfl
    exact { hm with bridges := rfl }
  refine hbegin.bind fun number => recover (hsearch _ _ fun p => ?_) fun why => ?_
  · refine bind (f := id) (enterLedger (fun l l' hl => ?_) fun _ => Nat.le_refl _) fun _ => hk p
    exact { hl with crossed := by simp [hl.crossed] }
  · have hend (crossed : Bool) : Mirrors r g
        (do
          Search.enterLedger fun l => { l with crossed := l.crossed.erase number }
          onFailure crossed why)
        (do
          Search.enterLedger fun l => { l with crossed := l.crossed.erase number }
          onFailure' crossed (r • why)) := by
      refine bind (f := id) (enterLedger (fun l l' hl => ?_) fun _ => Nat.le_refl _) fun _ =>
        hfailure crossed why
      exact { hl with crossed := by simp [hl.crossed] }
    refine ledger (fun l l' hl => ?_) fun l s => (hend _).advances s
    rw [hl.crossed]
    exact hend _

/-! ## Scopes -/

theorem inside (goal : Goal) (hm : Mirrors r f m m') :
    Mirrors r f (inside goal m) (Search.inside (r • goal) m') :=
  depth fun _ => (count _).bind fun _ =>
    within hm (fun _ _ hst => hst.enter goal) (fun _ _ hst => hst.leave) fun _ => ⟨rfl, rfl⟩

theorem outside (goal : Goal) (hm : Mirrors r f m m') :
    Mirrors r f (outside goal m) (Search.outside (r • goal) m') :=
  within hm (fun _ _ hst => hst.leave) (fun _ _ hst => hst.enter goal) fun _ => ⟨rfl, rfl⟩

theorem withdrawing (n : Nat) (hm : Mirrors r f m m') :
    Mirrors r f (withdrawing n m) (Search.withdrawing n m') where
  mirror s t hst := by
    have hafter (u v : State) (h : u.Mirror r v) : ((u.withdraw n).assume (s.hyps.drop n)).Mirror r
        ((v.withdraw n).assume (t.hyps.drop n)) := by
      rw [hst.hyps, ← List.map_drop]
      exact (h.withdraw n).assume _
    exact (within hm (fun _ _ h => h.withdraw n) hafter fun _ => ⟨rfl, rfl⟩).mirror s t hst
  advances s := by
    have hs := hm.advances (s.withdraw n)
    have hafter := Outcome.ledger_mapState (fun t => (t.withdraw n).assume (s.hyps.drop n))
      (fun _ => rfl) (m.run (s.withdraw n))
    simp only [Search.withdrawing, Search.within, hafter]
    exact hs

end Mirrors

end Search

/-! ## Provers -/

/-- The prover does under other names what it does under these. -/
def Prover.Equivariant (r : Renaming) (prove : Prover) : Prop :=
  ∀ ⦃ρ : Type⦄ ⦃g : ρ → ρ⦄ ⦃goal : Goal⦄ ⦃k k' : Proof → Search ρ⦄,
    (∀ p, Search.Mirrors r g (k p) (k' (r • p))) →
      Search.Mirrors r g (prove ρ goal k) (prove ρ (r • goal) k')

namespace Prover.Equivariant

open Search

variable {prove : Prover} {g : ρ → ρ}

theorem proveAssuming (hprove : prove.Equivariant r) (further : List Hypothesis) (goal : Goal)
    {k k' : Proof → Search ρ} (hk : ∀ p, Mirrors r g (k p) (k' (r • p))) :
    Mirrors r g (proveAssuming prove further goal k)
      (Search.proveAssuming prove (further.map (r • ·)) (r • goal) k') := by
  refine Mirrors.hyps fun hs => ?_
  rw [List.length_map]
  exact Mirrors.within (hprove fun p => (hk p).withdrawing _) (fun _ _ hst => hst.assume further)
    (fun _ _ hst => hst.withdraw _) fun _ => ⟨rfl, rfl⟩

theorem proveAll (hprove : prove.Equivariant r) {k k' : List Proof → Search ρ}
    (hk : ∀ ps, Mirrors r g (k ps) (k' (ps.map (r • ·)))) (goals : List Goal) (done : List Proof) :
    Mirrors r g (proveAll prove k goals done)
      (Search.proveAll prove k' (goals.map (r • ·)) (done.map (r • ·))) := by
  induction goals generalizing done with
  | nil => exact hk done
  | cons goal goals ih =>
    refine hprove fun p => ?_
    simpa using ih (done ++ [p])

end Prover.Equivariant

end Monotonicity
