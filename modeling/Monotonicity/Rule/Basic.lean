import Monotonicity.Rule.Script

/-!
# Rules

A rule looks at the goals of a pattern and reduces them by a method. Rules are tried in the order of
their priorities, the smallest first, and rules of equal priority in the order in which they were
registered.
-/

namespace Monotonicity

/-- What a rule has made of a goal: proofs it found itself, and goals still to be proved, in
order. -/
structure Reduction where
  premises : List Proof := []
  subgoals : List Goal := []
deriving Repr

inductive Method where
  | top
  | eqRefl
  | flipIntro
  | arrowIntro
  | dependentIntro
  | casesReduce
  | subrelRefl
  | subrelExtremes
  | subrelFact
  | subrelStructural
  | subrelTrans
  | destruct
  | monotone (side : Side)
  | eqCongruence
  | eqUnify
  | reflPlaceholder
  | deferUnsolved
  | relatorIntro
  | script (locals : Locals) (body : List Action)
  | choice (locals : Locals) (alternatives : List Alternative)

/-- `StepRule`: a rule, with what it looks at and when it is tried. -/
structure Rule where
  name : String
  priority : Int
  pattern : Pattern
  method : Method

/-! ## Where a test stops holding -/

/-- Looks among the `size` positions from `base` on for the one at which a test stops holding, by
halving them until one is left. -/
def bisect (test : Nat → Bool) (base size : Nat) : Nat :=
  if 1 < size then
    let half := size / 2
    if test (base + half) then bisect test (base + half) (size - half)
    else bisect test base (size - half)
  else if test base then base + 1
  else base
termination_by size

/-- `partition_point`: how many elements pass a test, in a list in which these stand before all
others. -/
def partitionPoint {α : Type} (test : α → Bool) (l : List α) : Nat :=
  bisect (fun i => l[i]?.any test) 0 l.length

theorem bisect_le {test : Nat → Bool} {bound : Nat} (htest : ∀ i, test i = true → i < bound)
    (base size : Nat) (h : base + size ≤ bound) : bisect test base size ≤ bound := by
  fun_induction bisect test base size with
  | case1 base size _ half _ ih => exact ih (by omega)
  | case2 base size _ half _ ih => exact ih (by omega)
  | case3 base size _ hpass => exact htest base hpass
  | case4 base size => omega

theorem partitionPoint_le {α : Type} (test : α → Bool) (l : List α) :
    partitionPoint test l ≤ l.length := by
  refine bisect_le (fun i hi => ?_) 0 l.length (by omega)
  obtain ⟨a, ha, -⟩ := (Option.any_eq_true ..).1 hi
  exact (List.getElem?_eq_some_iff.1 ha).1

namespace Rule

/-- Puts a rule behind all rules of smaller or equal priority, which stand first in a table: `point`
tells where they end. -/
def insertAt (point : (Rule → Bool) → List Rule → Nat) (rule : Rule) (rules : List Rule) :
    List Rule :=
  rules.insertIdx (point (fun r => r.priority ≤ rule.priority) rules) rule

/-- `register`: puts a rule into a table, at a place that is found by halving. -/
def insert : Rule → List Rule → List Rule := insertAt partitionPoint

theorem insert_perm (rule : Rule) (rules : List Rule) :
    (insert rule rules).Perm (rule :: rules) :=
  List.perm_insertIdx rule rules (partitionPoint_le _ rules)

/-! ## Bands of priorities -/

/-- Unfolding of a relation by its shape. -/
def intro : Int := 10

def order : Int := 20

def destruct : Int := 30

def monotonicity : Int := 40

/-- Rules that fill placeholders, or give up. -/
def lastResort : Int := 50

/-- The rules that `install` registers, with which every engine starts. -/
def standard : List Rule :=
  [ ⟨"top", intro, .related .top, .top⟩,
    ⟨"eq_refl", intro, .related .equality, .eqRefl⟩,
    ⟨"flip_intro", intro, .related .flip, .flipIntro⟩,
    ⟨"arrow_intro", intro + 1, .related .arrow, .arrowIntro⟩,
    ⟨"forall_intro", intro + 1, .related .dependent, .dependentIntro⟩,
    ⟨"match_reduce", intro + 2, .anyRelated, .casesReduce⟩,
    ⟨"subrel_refl", order, .subrel, .subrelRefl⟩,
    ⟨"subrel_extremes", order, .subrel, .subrelExtremes⟩,
    ⟨"subrel_fact", order + 1, .subrel, .subrelFact⟩,
    ⟨"subrel_structural", order + 2, .subrel, .subrelStructural⟩,
    ⟨"subrel_trans", order + 9, .subrel, .subrelTrans⟩,
    ⟨"destruct", destruct, .bothCases, .destruct⟩,
    ⟨"mono_left", monotonicity, .anyRelated, .monotone .left⟩,
    ⟨"mono_right", monotonicity + 1, .anyRelated, .monotone .right⟩,
    ⟨"eq_congruence", monotonicity + 5, .related .equality, .eqCongruence⟩,
    ⟨"eq_unify", lastResort, .related .equality, .eqUnify⟩,
    ⟨"refl_placeholder", lastResort + 1, .related .placeholder, .reflPlaceholder⟩,
    ⟨"defer_unsolved", lastResort + 40, .any, .deferUnsolved⟩ ]

def insertAll (rules : List Rule) (table : List Rule) : List Rule :=
  rules.foldl (fun table rule => rule.insert table) table

end Rule

end Monotonicity
