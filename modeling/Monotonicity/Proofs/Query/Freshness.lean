import Monotonicity.Proofs.Query.Observation
import Monotonicity.Proofs.Term.Built

/-!
# When a minted name is new

A pool is asked for two things: the symbol with a given name, and one made from a hint that should
be new. The numbers in minted names go up, so a name minted now was not minted before, whatever the
hints (`number_unique`). But a name that is asked for is taken as it is, and nothing keeps it from
being the one that is minted next. So a symbol that should be new is new if and only if its name was
not asked for, letter by letter.

The constants that a search introduces are such symbols, and rules take them to be arbitrary. So an
engine that was told a fact about `x#0` may take it for one about anything (`withFactAbout`).
-/

namespace Monotonicity

namespace Symbols

variable {σ : Symbols} {name : String}

/-- What a pool can be asked for. -/
inductive Call where
  /-- The symbol with this name. -/
  | intern (name : String)
  /-- A symbol made from this hint. -/
  | fresh (hint : String)
deriving DecidableEq

/-- Whether a call is for a symbol that should be new. -/
def Call.isFresh : Call → Bool
  | .intern _ => false
  | .fresh _ => true

/-- The symbol that a call is answered by, and the pool after it. -/
def perform (σ : Symbols) : Call → String × Symbols
  | .intern name => (name, σ.mention [name])
  | .fresh hint => σ.mint hint

/-- The symbols that calls are answered by, in order, and the pool after them. -/
def performAll (σ : Symbols) : List Call → List String × Symbols
  | [] => ([], σ)
  | call :: calls =>
    let (name, σ) := σ.perform call
    let (names, σ) := σ.performAll calls
    (name :: names, σ)

/-- The symbols that calls to a new pool are answered by. -/
def returned (calls : List Call) : List String := (performAll {} calls).1

/-- The pool after calls to a new one. -/
def after (calls : List Call) : Symbols := (performAll {} calls).2

theorem performAll_append (σ : Symbols) (calls more : List Call) :
    σ.performAll (calls ++ more) =
      ((σ.performAll calls).1 ++ ((σ.performAll calls).2.performAll more).1,
        ((σ.performAll calls).2.performAll more).2) := by
  induction calls generalizing σ with
  | nil => rfl
  | cons call calls ih => simp only [List.cons_append, performAll, ih]

theorem returned_fresh (before : List Call) (hint : String) :
    returned (before ++ [.fresh hint]) = returned before ++ [((after before).mint hint).1] := by
  rw [returned, performAll_append]
  rfl

theorem after_fresh (before : List Call) (hint : String) :
    after (before ++ [.fresh hint]) = ((after before).mint hint).2 := by
  rw [after, performAll_append]
  rfl

/-- Names are numbered by how many were made before. -/
theorem minted_performAll (σ : Symbols) (calls : List Call) :
    (σ.performAll calls).2.minted = σ.minted + calls.countP Call.isFresh := by
  induction calls generalizing σ with
  | nil => rfl
  | cons call calls ih =>
    cases call with
    | intern name => simp [performAll, perform, ih, mention, Call.isFresh]
    | fresh hint =>
      rw [List.countP_cons_of_pos rfl]
      simp only [performAll, perform, ih, mint]
      omega

theorem minted_after (calls : List Call) : (after calls).minted = calls.countP Call.isFresh := by
  rw [after, minted_performAll, Nat.zero_add]

theorem mem_performAll_of_intern {calls : List Call} (σ : Symbols) (h : Call.intern name ∈ calls) :
    name ∈ (σ.performAll calls).1 := by
  induction calls generalizing σ with
  | nil => cases h
  | cons call calls ih =>
    rcases List.mem_cons.1 h with rfl | h
    · exact List.mem_cons_self
    · exact List.mem_cons_of_mem _ (ih _ h)

/-- What calls return was asked for, or has a number below the count that they leave. -/
theorem intern_or_known_of_mem {calls : List Call} (h : name ∈ (σ.performAll calls).1) :
    Call.intern name ∈ calls ∨ Known (σ.performAll calls).2.minted name := by
  induction calls generalizing σ with
  | nil => cases h
  | cons call calls ih =>
    rcases List.mem_cons.1 h with rfl | h
    · cases call with
      | intern name => exact .inl List.mem_cons_self
      | fresh hint =>
        refine .inr (known_minting ?_)
        rw [minted_performAll, List.countP_cons_of_pos rfl]
        omega
    · rcases ih h with hcall | hknown
      · exact .inl (List.mem_cons_of_mem call hcall)
      · exact .inr hknown

/-- The symbol that `fresh` makes from a hint is one that was returned before if and only if it was
asked for by its name; so it is new if the names that were asked for have no mark. The constants
that a search introduces are made in this way, and one that was not asked for is in no term of
symbols that were returned before. -/
theorem fresh_is_new_unless_asked_for (before : List Call) (hint : String) :
    let c := minting hint (before.countP Call.isFresh)
    returned (before ++ [.fresh hint]) = returned before ++ [c] ∧
    (c ∈ returned before ↔ Call.intern c ∈ before) ∧
    ((∀ name, Call.intern name ∈ before → isMarked name = false) → c ∉ returned before) ∧
    (∀ s : State, s.ledger.symbols = after before →
      ∃ t, (Search.freshConst hint).run s = .success (.const c) t ∧
        t.ledger.symbols = after (before ++ [.fresh hint])) ∧
    ∀ u : Term, (∀ name ∈ u.symbols, name ∈ returned before) → Call.intern c ∉ before →
      c ∉ u.symbols := by
  intro c
  have hc : c = minting hint (after before).minted := by rw [minted_after]
  have hreturned : c ∈ returned before ↔ Call.intern c ∈ before := by
    refine ⟨fun h => ?_, mem_performAll_of_intern {}⟩
    rcases intern_or_known_of_mem h with hcall | hknown
    · exact hcall
    · exact absurd (hknown hint _ hc) (Nat.lt_irrefl _)
  refine ⟨?_, hreturned, fun hnames h => ?_, fun s hs => ?_, fun u hu hnot h => ?_⟩
  · rw [returned_fresh, hc]
    rfl
  · have hmarked := hnames c (hreturned.1 h)
    rw [isMarked_minting] at hmarked
    cases hmarked
  · let l : Ledger := { s.ledger with symbols := (s.ledger.symbols.mint hint).2 }
    refine ⟨{ s with ledger := l }, ?_, ?_⟩
    · rw [hc, ← hs]
      rfl
    · rw [after_fresh, ← hs]
  · exact hnot (hreturned.1 (hu c h))

/-- The mark in a name that was asked for does no harm if the number is another. -/
theorem fresh_is_new_among_marked :
    let before : List Call := [.intern "x#7", .fresh "x", .intern "x#0", .fresh "x#0", .intern "h"]
    Call.intern (minting "x" 2) ∉ before ∧ minting "x" 2 ∉ returned before := by
  intro before
  obtain ⟨-, hreturned, -⟩ := fresh_is_new_unless_asked_for before "x"
  have hnot : Call.intern (minting "x" 2) ∉ before := by decide +kernel
  exact ⟨hnot, fun h => hnot (hreturned.1 h)⟩

end Symbols

namespace Engine

/-- An engine that was told of `w` that `B` relates `f x` and `g y`. -/
def withFactAbout (x y : String) : Engine :=
  let told : Option (Nat × Registry) :=
    Registry.addFact? {} (.const "B") (.app "f" [.const x]) (.app "g" [.const y]) (.const "w")
  { theory := { Theory.standard {} with registry := (told.map (·.2)).getD {} }
    symbols := Symbols.after
      ((Reserved.all ++ ["B", "f", x, "g", y, "w"]).map Symbols.Call.intern) }

/-- A symbol with the name of the next one to be made is returned a second time as a new one. An
engine that was told a fact about `x#0` and `y#1` takes it for one about all elements that `A`
relates; from a fact about other elements the goal does not follow. -/
theorem withFactAbout_takes_known_for_new :
    let goal : Goal :=
      .related (.app Reserved.arrow [.const "A", .const "B"]) (.const "f") (.const "g")
    Symbols.returned [.intern "x#0", .fresh "x"] = ["x#0", "x#0"] ∧
    (∃ sol, ((withFactAbout "x#0" "y#1").solve goal).1.result = .ok sol ∧ sol.isSolved = true) ∧
    ∃ sol, ((withFactAbout "x0" "y1").solve goal).1.result = .ok sol ∧ sol.isFailed = true := by
  intro goal
  refine ⟨by decide +kernel, ?_, ?_⟩
  · exact exists_ok_of_any (by decide +kernel)
  · exact exists_ok_of_any (by decide +kernel)

end Engine

end Monotonicity
