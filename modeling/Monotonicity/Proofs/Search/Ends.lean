import Monotonicity.Proofs.Search.Growth

/-!
# How searches end

`Ends` is the weakest precondition of a search: what has to hold of a state for every failure from
it to leave a state with one property, and every success to give a value and a state with another.
Nothing is asked of a search that runs out of placeholder indices.

Three uses of it have names. `Gets` is for searches that return a value, `Yields` for those that
hand values to a continuation, and `Restores` for those that moreover take back what they did if
they fail. For the latter two a success is judged without its scope: on the way back from a
continuation scopes are opened and closed again.

There is one rule here for each way of making searches, so that later proofs need not look at runs.
-/

namespace Monotonicity

namespace Outcome

variable {α : Type}

/-- The ledger at the end of a search. -/
def ledger : Outcome α → Ledger
  | .success _ s => s.ledger
  | .failure _ s => s.ledger
  | .overflow l => l

theorem ledger_mapState (change : State → State) (h : ∀ s, (change s).ledger = s.ledger)
    (o : Outcome α) : (o.mapState change).ledger = o.ledger := by
  cases o <;> simp [ledger, mapState, h]

end Outcome

namespace Search

variable {α β ρ : Type} {m : Search α} {f : α → Search β} {s t : State} {goal : Goal}
  {F G : State → Prop} {Q R : α → State → Prop} {S : ρ → State → Prop}

/-- Every failure of `m` from `s` leaves a state with `F`, and every success gives a value and a
state with `Q`. -/
def Ends (m : Search α) (s : State) (F : State → Prop) (Q : α → State → Prop) : Prop :=
  match m.run s with
  | .success a t => Q a t
  | .failure _ t => F t
  | .overflow _ => True

/-- From `s`, `m` can only make the state grow, and it returns values with `Q`. -/
def Gets (m : Search α) (s : State) (Q : α → State → Prop) : Prop :=
  m.Ends s s.Grown fun a t => s.Grown t ∧ Q a t

/-- A failure of `m` from `s` leaves a grown state, and a success is one with `S`. -/
def Yields (m : Search ρ) (s : State) (S : ρ → State → Prop) : Prop :=
  m.Ends s s.Grown fun a t => S a t.bare

/-- A failure of `m` from `s` leaves the state as it was, and a success is one with `S`. -/
def Restores (m : Search ρ) (s : State) (S : ρ → State → Prop) : Prop :=
  m.Ends s s.Kept fun a t => S a t.bare

namespace Ends

theorem mono (h : m.Ends s F Q) (hF : ∀ t, F t → G t) (hQ : ∀ a t, Q a t → R a t) :
    m.Ends s G R := by
  unfold Ends at *
  split at h
  · exact hQ _ _ h
  · exact hF _ h
  · trivial

/-- What is known of all failures and successes is known of one that happened. -/
theorem of_failure {why : Failure} (h : m.Ends s F Q) (hr : m.run s = .failure why t) : F t := by
  simpa [Ends, hr] using h

theorem of_success {a : α} (h : m.Ends s F Q) (hr : m.run s = .success a t) : Q a t := by
  simpa [Ends, hr] using h

theorem bind {Q : β → State → Prop} (h : m.Ends s F fun a t => (f a).Ends t F Q) :
    (m >>= f).Ends s F Q := by
  unfold Ends at *
  rw [run_bind]
  cases hr : m.run s <;> simp_all

theorem recover {handler : Failure → Search α} (h : m.Ends s G Q)
    (hh : ∀ why t, G t → (handler why).Ends t F Q) : (m.recover handler).Ends s F Q := by
  unfold Ends at *
  rw [run_recover]
  cases hr : m.run s with
  | success a t => simpa [hr] using h
  | failure why t => exact hh why t (by simpa [hr] using h)
  | overflow l => trivial

theorem within (before after : State → State)
    (h : m.Ends (before s) (fun t => F (after t)) fun a t => Q a (after t)) :
    (within before after m).Ends s F Q := by
  unfold Ends at *
  cases hr : m.run (before s) <;> simp_all [Search.within, Outcome.mapState]

/-- An attempt leaves nothing behind if it fails. -/
theorem attempt (h : m.Ends s s.Grown Q) : (attempt m).Ends s s.Kept Q := by
  unfold Ends at *
  cases hr : m.run s with
  | success a t => simpa [Search.attempt, hr] using h
  | failure why t =>
    have hgrown : s.Grown t := by simpa [hr] using h
    simpa [Search.attempt, hr] using hgrown.kept_undo
  | overflow l => simp [Search.attempt, hr]

end Ends

theorem Restores.yields {m : Search ρ} (h : m.Restores s S) : m.Yields s S :=
  Ends.mono h (fun _ => State.Kept.grown) fun _ _ => id

/-- What grew from `t` grew from whatever `t` grew from. -/
theorem Yields.from {m : Search ρ} (h : m.Yields t S) (hs : s.Grown t) :
    m.Ends t s.Grown fun a u => S a u.bare :=
  Ends.mono h (fun _ => hs.trans) fun _ _ => id

theorem Restores.from {m : Search ρ} (h : m.Restores t S) (hs : s.Kept t) :
    m.Ends t s.Kept fun a u => S a u.bare :=
  Ends.mono h (fun _ => hs.trans) fun _ _ => id

namespace Gets

theorem mono (h : m.Gets s Q) (hQ : ∀ a t, s.Grown t → Q a t → R a t) : m.Gets s R :=
  Ends.mono h (fun _ => id) fun a t ⟨ht, ha⟩ => ⟨ht, hQ a t ht ha⟩

theorem and (h : m.Gets s Q) (h' : m.Gets s R) : m.Gets s fun a t => Q a t ∧ R a t := by
  unfold Gets Ends at *
  split at h <;> simp_all

theorem pure {a : α} (h : Q a s) : (pure a : Search α).Gets s Q := ⟨.refl s, h⟩

theorem bind {Q : α → State → Prop} {R : β → State → Prop} (h : m.Gets s Q)
    (hf : ∀ a t, s.Grown t → Q a t → (f a).Gets t R) : (m >>= f).Gets s R := by
  apply Ends.bind
  refine Ends.mono h (fun _ => id) ?_
  rintro a t ⟨ht, ha⟩
  exact Ends.mono (hf a t ht ha) (fun _ => ht.trans) fun b u ⟨hu, hb⟩ => ⟨ht.trans hu, hb⟩

/-- A search that returns a value, and then one that hands values on. -/
theorem yields {f : α → Search ρ} (h : m.Gets s Q)
    (hf : ∀ a t, s.Grown t → Q a t → (f a).Yields t S) : (m >>= f).Yields s S := by
  apply Ends.bind
  refine Ends.mono h (fun _ => id) ?_
  rintro a t ⟨ht, ha⟩
  exact (hf a t ht ha).from ht

/-! ## Failing -/

theorem noRule : (noRule goal : Search α).Gets s Q := State.Grown.refl s

theorem noCandidate : (noCandidate goal : Search α).Gets s Q := State.Grown.refl s

theorem gap : (gap goal : Search α).Gets s Q := State.Grown.refl s

/-- A value that has to be there is there afterwards. -/
theorem require {value : Option α} {otherwise : Search α}
    (h : otherwise.Gets s fun a t => value = some a ∧ t = s) :
    (require value otherwise).Gets s fun a t => value = some a ∧ t = s := by
  cases value with
  | none => exact h
  | some a => exact .pure ⟨rfl, rfl⟩

end Gets

namespace Yields

theorem fail {why : Failure} : (fail why : Search ρ).Yields s S := State.Grown.refl s

theorem noRule : (noRule goal : Search ρ).Yields s S := State.Grown.refl s

theorem noCandidate : (noCandidate goal : Search ρ).Yields s S := State.Grown.refl s

theorem gap : (gap goal : Search ρ).Yields s S := State.Grown.refl s

theorem failBest {otherwise : Search ρ} {best : Option Failure} (h : otherwise.Yields s S) :
    (failBest otherwise best).Yields s S := by
  cases best with
  | none => exact h
  | some why => exact .fail

end Yields

/-! ## Reading the state -/

namespace Gets

variable {R : β → State → Prop}

theorem subst {f : Subst → Search β} (h : (f s.subst).Gets s R) : (subst >>= f).Gets s R := h

theorem hyps {f : List Hypothesis → Search β} (h : (f s.hyps).Gets s R) : (hyps >>= f).Gets s R := h

theorem ledger {f : Ledger → Search β} (h : (f s.ledger).Gets s R) : (ledger >>= f).Gets s R := h

end Gets

namespace Yields

theorem subst {f : Subst → Search ρ} (h : (f s.subst).Yields s S) : (subst >>= f).Yields s S := h

theorem hyps {f : List Hypothesis → Search ρ} (h : (f s.hyps).Yields s S) :
    (hyps >>= f).Yields s S := h

theorem ledger {f : Ledger → Search ρ} (h : (f s.ledger).Yields s S) :
    (ledger >>= f).Yields s S := h

end Yields

namespace Restores

theorem subst {f : Subst → Search ρ} (h : (f s.subst).Restores s S) :
    (subst >>= f).Restores s S := h

theorem active {f : List Goal → Search ρ} (h : (f s.active).Restores s S) :
    (active >>= f).Restores s S := h

theorem depth {f : Nat → Search ρ} (h : (f s.depth).Restores s S) : (depth >>= f).Restores s S := h

theorem ledger {f : Ledger → Search ρ} (h : (f s.ledger).Restores s S) :
    (ledger >>= f).Restores s S := h

end Restores

/-! ## Changing the state -/

/-- The ledger of a state replaced by one that it advances to. -/
theorem kept_ledger {l : Ledger} (h : s.ledger.Advanced l) : s.Kept { s with ledger := l } :=
  ⟨rfl, rfl, rfl, rfl, rfl, h⟩

theorem enterLedger_gets {g : Ledger → Ledger} (hg : s.ledger.Advanced (g s.ledger)) :
    (enterLedger g).Gets s fun _ t => s.Kept t ∧ t.ledger = g s.ledger :=
  ⟨(kept_ledger hg).grown, kept_ledger hg, rfl⟩

theorem count_gets {g : Stats → Stats} (hg : ∀ n, n ≤ g n) :
    (count g).Gets s fun _ t => s.Kept t ∧ t.ledger.symbols = s.ledger.symbols := by
  have h : s.ledger.Advanced { s.ledger with stats := g s.ledger.stats } :=
    { Ledger.Advanced.refl s.ledger with stats := hg _ }
  exact ⟨(kept_ledger h).grown, kept_ledger h, rfl⟩

/-- Counting is not taken back. -/
theorem Restores.count {g : Stats → Stats} (hg : ∀ n, n ≤ g n) {f : Unit → Search ρ}
    (h : ∀ t, s.Kept t → (f ()).Restores t S) : (Search.count g >>= f).Restores s S := by
  have hk : s.Kept { s with ledger := { s.ledger with stats := g s.ledger.stats } } :=
    kept_ledger { Ledger.Advanced.refl s.ledger with stats := hg _ }
  exact (h _ hk).from hk

/-- A unification either extends the substitution or changes nothing. -/
theorem unify_gets {a b : Term} :
    (unify a b).Gets s fun ok t => (ok = true → s.subst.unify a b = some t.subst) := by
  refine (count_gets ?_).bind ?_
  · intro n
    simp [Stats.le_def]
  · rintro - t - ⟨ht, -⟩
    unfold Gets Ends assign
    dsimp only
    cases h : t.subst.unify a b with
    | none => exact ⟨.refl t, by simp⟩
    | some τ =>
      have hg := Subst.unify_gains h
      refine ⟨⟨hg.le, hg.acyclic, rfl, List.prefix_refl _, rfl, rfl, .refl _⟩, fun _ => ?_⟩
      rw [← ht.subst, h]

/-- One way to go on if two terms can be unified, and another if not. -/
theorem Gets.unify {a b : Term} {m m' : Search β} {R : β → State → Prop}
    (h : ∀ t, s.Grown t → s.subst.unify a b = some t.subst → m.Gets t R)
    (h' : ∀ t, s.Grown t → m'.Gets t R) :
    (Search.unify a b >>= fun ok => if ok = true then m else m').Gets s R := by
  refine unify_gets.bind fun ok t ht hok => ?_
  cases ok with
  | true => exact h t ht (hok rfl)
  | false => exact h' t ht

theorem Yields.unify {a b : Term} {m m' : Search ρ}
    (h : ∀ t, s.Grown t → s.subst.unify a b = some t.subst → m.Yields t S)
    (h' : ∀ t, s.Grown t → m'.Yields t S) :
    (Search.unify a b >>= fun ok => if ok = true then m else m').Yields s S := by
  refine unify_gets.yields fun ok t ht hok => ?_
  cases ok with
  | true => exact h t ht (hok rfl)
  | false => exact h' t ht

/-- The placeholders set aside are new, and nothing else changes. -/
theorem reserve_gets {n : Nat} :
    (reserve n).Gets s fun i t =>
      s.Kept t ∧ t.minted = s.minted ∧ i = s.ledger.nextVar := by
  unfold Gets Ends reserve
  dsimp only
  split
  · next h =>
    split at h <;> cases h
    have hk : s.Kept { s with ledger := { s.ledger with nextVar := s.ledger.nextVar + n } } :=
      kept_ledger { Ledger.Advanced.refl s.ledger with nextVar := Nat.le_add_right .. }
    exact ⟨hk.grown, hk, rfl, rfl⟩
  · next h => split at h <;> cases h
  · trivial

theorem freshVar_gets :
    freshVar.Gets s fun v t =>
      s.Kept t ∧ t.minted = s.minted ∧ v = .var s.ledger.nextVar := by
  refine reserve_gets.bind fun i t _ ht => .pure ?_
  exact ⟨ht.1, ht.2.1, by rw [ht.2.2]⟩

theorem freshVars_gets {n : Nat} :
    (freshVars n).Gets s fun vs t => s.Kept t ∧ t.minted = s.minted ∧ vs.length = n ∧
      ∀ v ∈ vs, ∃ i, s.ledger.nextVar ≤ i ∧ v = .var i := by
  induction n generalizing s with
  | zero => exact .pure ⟨.refl s, rfl, rfl, by simp⟩
  | succ n ih =>
    refine freshVar_gets.bind fun v t _ ht => ih.bind fun vs u _ hu => .pure ?_
    obtain ⟨hkept, hminted, rfl⟩ := ht
    obtain ⟨hkept', hminted', hlen, hvs⟩ := hu
    refine ⟨hkept.trans hkept', hminted'.trans hminted, by simp [hlen], ?_⟩
    refine List.forall_mem_cons.2 ⟨⟨_, le_rfl, rfl⟩, fun v hv => ?_⟩
    obtain ⟨i, hi, rfl⟩ := hvs v hv
    exact ⟨i, hkept.ledger.nextVar.trans hi, rfl⟩

end Search

/-- The constant that the `n`-th minting makes from a hint. -/
def Term.minting (hint : String) (n : Nat) : Term := .const (Symbols.minting hint n)

/-- The constants that `k` mintings make from a hint, from the `n`-th on. -/
def Term.mintings (hint : String) (n k : Nat) : List Term :=
  (List.range' n k).map (Term.minting hint)

namespace Search

variable {s : State} {hint : String} {n : Nat}

theorem freshConst_gets :
    (freshConst hint).Gets s fun c t =>
      s.Kept t ∧ t.minted = s.minted + 1 ∧ c = .minting hint s.minted := by
  have h : s.ledger.Advanced { s.ledger with symbols := (s.ledger.symbols.mint hint).2 } :=
    { Ledger.Advanced.refl s.ledger with
      names := List.suffix_cons .., minted := Nat.le_succ _ }
  exact ⟨(kept_ledger h).grown, kept_ledger h, rfl, rfl⟩

theorem freshConsts_gets :
    (freshConsts hint n).Gets s fun cs t =>
      s.Kept t ∧ t.minted = s.minted + n ∧ cs = Term.mintings hint s.minted n := by
  induction n generalizing s with
  | zero => exact .pure ⟨.refl s, rfl, rfl⟩
  | succ n ih =>
    refine freshConst_gets.bind fun c t _ ht => ih.bind fun cs u _ hu => .pure ?_
    refine ⟨ht.1.trans hu.1, by rw [hu.2.1, ht.2.1]; omega, ?_⟩
    rw [hu.2.2, ht.2.1, ht.2.2]
    rfl

/-- A goal put off stands behind the obligations that were there, with the hypotheses in scope. -/
theorem defer_gets {goal : Goal} :
    (defer goal).Gets s fun p t => t.subst = s.subst ∧
      p = .deferred s.delayed.length ∧
      t.delayed = s.delayed ++ [⟨goal.resolve s.subst, s.hyps⟩] := by
  refine (count_gets ?_).bind ?_
  · intro n
    simp [Stats.le_def]
  · rintro - t - ⟨ht, -⟩
    refine ⟨⟨Subst.le_refl _, id, rfl, List.prefix_append .., rfl, rfl, .refl _⟩, ht.subst, ?_, ?_⟩
    · rw [← ht.delayed]
    · simp only [← ht.delayed, ← ht.subst, ← ht.hyps]

/-! ## Alternatives -/

variable {α ρ : Type} {S : ρ → State → Prop} {T : Theory}

theorem unlessSpent_yields {why : Failure} {next : Search ρ} (h : next.Yields s S) :
    (unlessSpent T why next).Yields s S := by
  refine Yields.ledger ?_
  split
  · exact .fail
  · exact h

theorem unlessSpent_restores {why : Failure} {next : Search ρ} (h : next.Restores s S) :
    (unlessSpent T why next).Restores s S := by
  refine Restores.ledger ?_
  split
  · exact State.Kept.refl s
  · exact h

/-- Alternatives are tried one after the other from the state that the first one found. -/
theorem tryEach_yields {run : α → Search ρ} {otherwise : Option Failure → Search ρ} {as : List α}
    {best : Option Failure} (hrun : ∀ a ∈ as, ∀ t, s.Kept t → (run a).Yields t S)
    (hother : ∀ best t, s.Kept t → (otherwise best).Yields t S) :
    (tryEach T run otherwise as best).Yields s S := by
  induction as generalizing s best with
  | nil => exact hother best s (.refl s)
  | cons a as ih =>
    refine Ends.recover (hrun a List.mem_cons_self s (.refl s)).attempt fun why t ht => ?_
    refine (unlessSpent_yields (ih ?_ ?_)).from ht.grown
    · exact fun b hb u hu => hrun b (List.mem_cons_of_mem a hb) u (ht.trans hu)
    · exact fun best u hu => hother best u (ht.trans hu)

/-! ## Bridges -/

theorem beginBridge_gets : beginBridge.Gets s fun number t => s.Kept t ∧ number = s.ledger.bridges := by
  refine Gets.ledger ((enterLedger_gets ?_).bind fun _ t _ ht => .pure ?_)
  · exact .begin s.ledger
  · exact ⟨ht.1, rfl⟩

/-- A bridge that was begun is crossed. -/
theorem Yields.cross {number : Nat} {m : Search ρ} (h : ∀ u, t.Kept u → m.Yields u S) :
    (enterLedger (fun l => { l with crossed := l.crossed.insert number }) >>=
      fun _ => m).Yields t S :=
  (enterLedger_gets (.cross t.ledger number)).yields fun _ u _ hu => h u hu.1

/-- Whether a bridge was crossed is written down in the ledger only. -/
theorem bridging_yields {search : (Proof → Search ρ) → Search ρ} {k : Proof → Search ρ}
    {onFailure : Bool → Failure → Search ρ}
    (hsearch : ∀ cross : Proof → Search ρ,
      (∀ p u, (∀ v, u.Kept v → (k p).Yields v S) → (cross p).Yields u S) →
      ∀ t, s.Kept t → (search cross).Yields t S)
    (hfail : ∀ crossed why t, s.Grown t → (onFailure crossed why).Yields t S) :
    (bridging search k onFailure).Yields s S := by
  refine Ends.bind (Ends.mono beginBridge_gets (fun _ => id) ?_)
  rintro number t ⟨-, ht, rfl⟩
  refine Ends.recover (hsearch _ (fun p u hu => .cross hu) t ht) fun why u hu => ?_
  have herased := (ht.grown.trans hu).erase le_rfl
  exact (hfail (u.ledger.crossed.contains s.ledger.bridges) why _ herased).from herased

end Search

end Monotonicity
