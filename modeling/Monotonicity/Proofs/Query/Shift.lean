import Monotonicity.Proofs.Query.Fuel
import Monotonicity.Proofs.Renaming.Solution

/-!
# The caller's placeholders

Placeholders are numbered by the caller, and the search numbers its own ones from behind those. A
goal with all placeholders shifted has the answer of the goal, shifted: facts and inclusions are
renamed apart for each use, so that they cannot meet the caller's placeholders.

The relations that schemes fix for fields are used as they are. A placeholder in one of them is the
caller's placeholder of that number, and then the numbers matter.
-/

namespace Monotonicity

/-- Shifts all placeholders. -/
def Renaming.shifting (k : Nat) : Renaming := { shift := k }

theorem Renaming.proper_shifting (k : Nat) : (shifting k).Proper :=
  ⟨fun _ _ => id, fun _ _ => rfl⟩

@[simp] theorem Renaming.shifting_smul (k : Nat) (t : Term) : shifting k • t = t.rename k := by
  rw [Term.smul_of_keepsNames fun _ _ => rfl, Term.rename_eq_subst]
  simp [shifting, Nat.add_comm]

/-- A theory holds nothing that a shift changes, if no relation that it fixes has placeholders. -/
theorem Theory.untouched_shifting {T : Theory} (h : ∀ rel ∈ T.registry.fixed, rel.vars = [])
    (k : Nat) : T.Untouched (.shifting k) where
  proper := Renaming.proper_shifting k
  facts _ _ := ⟨fun _ _ => rfl, fun _ _ => rfl, fun _ _ => rfl, fun _ _ => rfl⟩
  inclusions _ _ := ⟨fun _ _ => rfl, fun _ _ => rfl⟩
  byShape _ _ _ := rfl
  byHead _ _ := rfl
  parameters _ := rfl
  variances _ := rfl
  schemes _ := rfl
  cases head scheme hscheme pair hpair := by
    refine ⟨rfl, rfl, fun rel hrel => ?_⟩
    exact Term.smul_eq_self (fun _ _ => rfl) (.inr (h rel (Registry.mem_fixed hscheme hpair hrel)))
  patterns _ _ _ _ := rfl

namespace Engine

variable {E : Engine} {goal : Goal} {k : Nat}

/-- The answer of `solve` to a goal with all its placeholders shifted is the answer to the goal,
shifted: with the same outcome and the same statistics, and with the goal, the bindings, the proof,
the failure and what was put off shifted as well. The goal has a placeholder, so that those of the
search are shifted too, and the shift leaves room for all of them. -/
theorem solve_shifted (hE : E.theory.Library)
    (hfixed : ∀ rel ∈ E.theory.registry.fixed, rel.vars = [])
    (hgoal : ∃ t ∈ goal.terms, t.vars ≠ []) (hroom : E.reach goal + k < indexBound) :
    (E.solve (goal.map (·.rename k))).1 = Renaming.shifting k • (E.solve goal).1 := by
  have hbound : 0 < Term.boundAll goal.terms := by
    obtain ⟨t, ht, hvars⟩ := hgoal
    obtain ⟨i, hi⟩ := List.exists_mem_of_ne_nil _ hvars
    have hlt : i < Term.boundAll goal.terms := by
      refine Term.lt_boundAll _ ?_
      rw [Term.varsAll_eq_flatMap]
      exact List.mem_flatMap.2 ⟨t, ht, hi⟩
    omega
  have hsame : Mirror (.shifting k) E E := ⟨rfl, fun _ _ _ => rfl⟩
  have h := solve_smul hsame (Theory.untouched_shifting hfixed k) hE (.inr ⟨hbound, hroom⟩)
  rwa [show Renaming.shifting k • goal = goal.map (·.rename k) from ?_] at h
  simp only [← Renaming.shifting_smul]
  rfl

/-- An engine that was told that `s Q` and `t` are related by `T` and that `f` and `g` take
`P`-related arguments to `R`-related results. The values that `T` relates are made by `C` from
fields related by the given relation. -/
def withField (rel : Term) : Engine :=
  let told : Option Registry := do
    let (_, r) ← Registry.addFact? {} (.const "T") (.app "s" [.const "Q"]) (.const "t") (.const "w")
    let (_, r) ← r.addFact? (.arrow (.const "P") (.const "R")) (.const "f") (.const "g") (.const "v")
    return { r with schemes := r.schemes.insert "T" ⟨[⟨"C", "C", [.fixed rel]⟩]⟩ }
  { Engine.new {} with theory := { Theory.standard {} with registry := told.getD {} } }

/-- Case analyses of `s ?i` and `t` that apply `f` and `g` to the field. -/
def splitGoal (i : Nat) : Goal :=
  .related (.const "R") (.cases (.app "s" [.var i]) [⟨"C", 1, .const "f"⟩])
    (.cases (.const "t") [⟨"C", 1, .const "g"⟩])

/-- With the field related by `P`, the placeholder is filled with `Q`, whatever its number. -/
theorem withField_shifts :
    (withField (.const "P")).reach (splitGoal 0) + 41 < indexBound ∧
    ∃ sol, ((withField (.const "P")).solve (splitGoal 0)).1.result = .ok sol ∧
      sol.isSolved = true ∧ sol.bindings = [(0, .const "Q")] ∧
      ((withField (.const "P")).solve (splitGoal 41)).1.result =
        .ok (Renaming.shifting 41 • sol) := by
  have hsolved : ((withField (.const "P")).solve (splitGoal 0)).1.result.toOption.any
      (fun sol => sol.isSolved && decide (sol.bindings = [(0, .const "Q")])) = true := by
    decide +kernel
  have hroom : (withField (.const "P")).reach (splitGoal 0) + 41 < indexBound := by
    decide +kernel
  obtain ⟨sol, hsol, hfound⟩ := exists_ok_of_any hsolved
  simp only [Bool.and_eq_true, decide_eq_true_eq] at hfound
  refine ⟨hroom, sol, hsol, hfound.1, hfound.2, ?_⟩
  have h := solve_shifted (library_standard {}) (E := withField (.const "P")) (by decide)
    ⟨_, List.mem_cons_of_mem _ List.mem_cons_self, by decide⟩ hroom
  have hgoal : (splitGoal 0).map (·.rename 41) = splitGoal 41 := by decide
  rw [← hgoal, h, Answer.result_smul, hsol]
  rfl

/-- With the field related by a placeholder of the scheme, that placeholder is the caller's `?0` in
the one goal, and its value `Q` does not relate the fields. In the shifted goal it is free to become
`P`. -/
theorem withField_captures :
    (withField (.var 0)).reach (splitGoal 0) + 1 < indexBound ∧
    (∃ sol, ((withField (.var 0)).solve (splitGoal 0)).1.result = .ok sol ∧ sol.isFailed = true) ∧
    ∃ sol, ((withField (.var 0)).solve ((splitGoal 0).map (·.rename 1))).1.result = .ok sol ∧
      sol.isSolved = true ∧ sol.bindings = [(0, .const "P"), (1, .const "Q")] := by
  have hfailed : ((withField (.var 0)).solve (splitGoal 0)).1.result.toOption.any
      (·.isFailed) = true := by
    decide +kernel
  have hsolved : ((withField (.var 0)).solve
      ((splitGoal 0).map (·.rename 1))).1.result.toOption.any (fun sol =>
        sol.isSolved && decide (sol.bindings = [(0, .const "P"), (1, .const "Q")])) = true := by
    decide +kernel
  obtain ⟨sol, hsol, hfound⟩ := exists_ok_of_any hsolved
  simp only [Bool.and_eq_true, decide_eq_true_eq] at hfound
  exact ⟨by decide +kernel, exists_ok_of_any hfailed, sol, hsol, hfound⟩

end Engine

end Monotonicity
