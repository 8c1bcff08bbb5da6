import Mathlib.Data.List.Basic
import Monotonicity.Rule.Basic

/-!
# The order of rules

A rule goes into a table behind the rules of smaller or equal priority. Where these end is found by
a search that is right if they stand before all others (`FindsEnd`). So the order of the table is
what the search relies on and what the insertion has to keep: `StableSort.insertAt` is the step,
from one call to the next, and `StableSort.foldl_insertAt` is about any number of calls. There is
one stable sort only (`StableSort.unique`), and sorting by merging finds it too.
-/

namespace Monotonicity

/-! ## The search -/

/-- A search for the end of the elements that pass a test, right for lists in which these stand
before all others. What it finds in other lists is left open. -/
def FindsEnd {α : Type} (point : (α → Bool) → List α → Nat) : Prop :=
  ∀ (test : α → Bool) (passing failing : List α), (∀ a ∈ passing, test a = true) →
    (∀ a ∈ failing, test a = false) → point test (passing ++ failing) = passing.length

/-- The position is always among those that are left, or right behind them. -/
theorem bisect_eq {test : Nat → Bool} {n : Nat} (htest : ∀ i, test i = true ↔ i < n)
    (base size : Nat) (hbase : base ≤ n) (hsize : n ≤ base + size) : bisect test base size = n := by
  fun_induction bisect test base size with
  | case1 base size hlarge half hpass ih =>
    have hlt := (htest (base + half)).1 hpass
    exact ih (by omega) (by omega)
  | case2 base size hlarge half hfail ih =>
    have hnot := mt (htest (base + half)).2 hfail
    exact ih hbase (by omega)
  | case3 base size hsmall hpass =>
    have hlt := (htest base).1 hpass
    omega
  | case4 base size hsmall hfail =>
    have hnot := mt (htest base).2 hfail
    omega

theorem findsEnd_partitionPoint {α : Type} : FindsEnd (@partitionPoint α) := by
  intro test passing failing hpassing hfailing
  refine bisect_eq (fun i => ?_) 0 _ (Nat.zero_le _) (by simp)
  by_cases hi : i < passing.length
  · rw [List.getElem?_append_left hi, List.getElem?_eq_getElem hi, Option.any_some]
    exact ⟨fun _ => hi, fun _ => hpassing _ (List.getElem_mem hi)⟩
  · rw [List.getElem?_append_right (Nat.le_of_not_lt hi)]
    refine ⟨fun h => ?_, fun h => absurd h hi⟩
    obtain ⟨a, ha, hpass⟩ := (Option.any_eq_true ..).1 h
    rw [hfailing a (List.mem_of_getElem? ha)] at hpass
    cases hpass

theorem insertIdx_length_append {α : Type} (a : α) (l l' : List α) :
    (l ++ l').insertIdx l.length a = l ++ a :: l' := by
  induction l with
  | nil => rfl
  | cons b l ih => rw [List.cons_append, List.length_cons, List.insertIdx_succ_cons, ih,
      List.cons_append]

namespace Rule

variable {calls table : List Rule} {point : (Rule → Bool) → List Rule → Nat}

/-! ## Tables -/

/-- The table that calls make of an empty one, if places in it are found by `point`. -/
def register (point : (Rule → Bool) → List Rule → Nat) (calls : List Rule) : List Rule :=
  calls.foldl (fun table rule => rule.insertAt point table) []

/-- A table has the rules of some calls in ascending order of their priorities, and those of equal
priority in the order of the calls. -/
structure StableSort (calls table : List Rule) : Prop where
  /-- No call is lost and none counts twice. -/
  perm : table.Perm calls
  ascending : table.Pairwise (·.priority ≤ ·.priority)
  stable : ∀ p : Int, table.filter (·.priority = p) = calls.filter (·.priority = p)

/-- In an ascending table the rules up to a priority stand before all others. -/
theorem exists_split (h : table.Pairwise (·.priority ≤ ·.priority)) (p : Int) :
    ∃ passing failing, table = passing ++ failing ∧ (∀ r ∈ passing, r.priority ≤ p) ∧
      ∀ r ∈ failing, p < r.priority := by
  induction h with
  | nil => exact ⟨[], [], rfl, by simp, by simp⟩
  | @cons r rest hr _ ih =>
    by_cases hp : r.priority ≤ p
    · obtain ⟨passing, failing, rfl, hpassing, hfailing⟩ := ih
      exact ⟨r :: passing, failing, rfl, List.forall_mem_cons.2 ⟨hp, hpassing⟩, hfailing⟩
    · refine ⟨[], r :: rest, rfl, by simp, List.forall_mem_cons.2 ⟨by omega, fun r' hr' => ?_⟩⟩
      have hle := hr r' hr'
      omega

/-- The rule goes between the rules up to its own priority and all others. -/
theorem insertAt_append (hpoint : FindsEnd point) {rule : Rule} {passing failing : List Rule}
    (hpassing : ∀ r ∈ passing, r.priority ≤ rule.priority)
    (hfailing : ∀ r ∈ failing, rule.priority < r.priority) :
    rule.insertAt point (passing ++ failing) = passing ++ rule :: failing := by
  rw [insertAt, hpoint _ passing failing (by simpa using hpassing) (by simpa using hfailing),
    insertIdx_length_append]

/-- An ascending table is known from what it has of each priority. -/
theorem eq_of_filter_eq {table' : List Rule} (h : table.Pairwise (·.priority ≤ ·.priority))
    (h' : table'.Pairwise (·.priority ≤ ·.priority))
    (hfilter : ∀ p : Int, table.filter (·.priority = p) = table'.filter (·.priority = p)) :
    table = table' := by
  induction table generalizing table' with
  | nil =>
    cases table' with
    | nil => rfl
    | cons b rest' => simpa using hfilter b.priority
  | cons a rest ih =>
    cases table' with
    | nil => simpa using hfilter a.priority
    | cons b rest' =>
      have hmem (r : Rule) : r ∈ a :: rest ↔ r ∈ b :: rest' := by
        simpa using congrArg (r ∈ ·) (hfilter r.priority)
      obtain ⟨ha, hrest⟩ := List.pairwise_cons.1 h
      obtain ⟨hb, hrest'⟩ := List.pairwise_cons.1 h'
      have hle : a.priority ≤ b.priority := by
        rcases List.mem_cons.1 ((hmem b).2 List.mem_cons_self) with rfl | hin
        · exact Int.le_refl _
        · exact ha b hin
      have hge : b.priority ≤ a.priority := by
        rcases List.mem_cons.1 ((hmem a).1 List.mem_cons_self) with rfl | hin
        · exact Int.le_refl _
        · exact hb a hin
      have heq : b.priority = a.priority := Int.le_antisymm hge hle
      have hheads := hfilter a.priority
      simp only [List.filter_cons, heq, decide_true, if_true, List.cons.injEq] at hheads
      obtain ⟨rfl, -⟩ := hheads
      congr 1
      refine ih hrest hrest' fun p => ?_
      have hp := hfilter p
      by_cases hap : a.priority = p <;> simpa [List.filter_cons, hap] using hp

namespace StableSort

theorem nil : StableSort [] [] := ⟨.nil, .nil, fun _ => rfl⟩

/-- A call puts its rule last among those of its priority. -/
theorem insertAt (hpoint : FindsEnd point) (h : StableSort calls table) (rule : Rule) :
    StableSort (calls ++ [rule]) (rule.insertAt point table) := by
  obtain ⟨passing, failing, rfl, hpassing, hfailing⟩ := exists_split h.ascending rule.priority
  rw [insertAt_append hpoint hpassing hfailing]
  refine ⟨?_, ?_, fun p => ?_⟩
  · have hcons : (passing ++ rule :: failing).Perm (rule :: calls) :=
      List.perm_middle.trans (h.perm.cons rule)
    exact hcons.trans (List.perm_append_singleton rule calls).symm
  · obtain ⟨hleft, hright, hcross⟩ := List.pairwise_append.1 h.ascending
    refine List.pairwise_append.2 ⟨hleft, List.pairwise_cons.2 ⟨fun r hr => ?_, hright⟩, ?_⟩
    · exact Int.le_of_lt (hfailing r hr)
    · intro a ha b hb
      rcases List.mem_cons.1 hb with rfl | hb
      · exact hpassing a ha
      · exact hcross a ha b hb
  · have hstable := h.stable p
    rw [List.filter_append] at hstable
    rw [List.filter_append, List.filter_append, ← hstable]
    by_cases hp : rule.priority = p
    · -- The rules behind the new one are of greater priority, so it is the last with this one.
      have hnone : failing.filter (·.priority = p) = [] := by
        refine List.filter_eq_nil_iff.2 fun r hr => ?_
        have hlt := hfailing r hr
        simp only [decide_eq_true_eq]
        omega
      simp [hp, hnone]
    · simp [hp]

/-- Calls one after the other keep the order. -/
theorem foldl_insertAt (hpoint : FindsEnd point) (h : StableSort calls table) (more : List Rule) :
    StableSort (calls ++ more)
      (more.foldl (fun table rule => rule.insertAt point table) table) := by
  induction more generalizing calls table with
  | nil => simpa using h
  | cons rule more ih =>
    have hrest := ih (h.insertAt hpoint rule)
    rwa [List.append_assoc, List.singleton_append] at hrest

/-- Calls have one stable sort only. -/
theorem unique {table' : List Rule} (h : StableSort calls table) (h' : StableSort calls table') :
    table = table' :=
  eq_of_filter_eq h.ascending h'.ascending fun p => (h.stable p).trans (h'.stable p).symm

end StableSort

theorem stableSort_register (hpoint : FindsEnd point) (calls : List Rule) :
    StableSort calls (register point calls) :=
  StableSort.nil.foldl_insertAt hpoint calls

/-- It does not matter how places are found, by halving or in another way. -/
theorem insertAll_eq_register (hpoint : FindsEnd point) (calls : List Rule) :
    insertAll calls [] = register point calls :=
  (stableSort_register findsEnd_partitionPoint calls).unique (stableSort_register hpoint calls)

/-- Sorting by merging gives the stable sort. -/
theorem stableSort_mergeSort (calls : List Rule) :
    StableSort calls (calls.mergeSort fun a b => a.priority ≤ b.priority) := by
  have htrans : ∀ a b c : Rule, decide (a.priority ≤ b.priority) = true →
      decide (b.priority ≤ c.priority) = true → decide (a.priority ≤ c.priority) = true := by
    grind
  have htotal : ∀ a b : Rule,
      (decide (a.priority ≤ b.priority) || decide (b.priority ≤ a.priority)) = true := by
    grind
  have hperm := List.mergeSort_perm calls fun a b => a.priority ≤ b.priority
  refine ⟨hperm, ?_, fun p => ?_⟩
  · simpa using List.pairwise_mergeSort htrans htotal calls
  · -- The calls of one priority are in order as they are, so they are found in this order after
    -- sorting, and sorting adds none.
    have hequal : (calls.filter (·.priority = p)).Pairwise
        fun a b => decide (a.priority ≤ b.priority) = true := by
      refine List.pairwise_of_forall_mem_list fun a ha b hb => ?_
      simp only [List.mem_filter, decide_eq_true_eq] at ha hb ⊢
      omega
    have hsub := (List.sublist_mergeSort htrans htotal hequal List.filter_sublist).filter
      (·.priority = p)
    rw [List.filter_filter] at hsub
    simp only [Bool.and_self] at hsub
    exact (hsub.eq_of_length (hperm.filter _).length_eq.symm).symm

end Rule

end Monotonicity
