/-!
# Tables: finite maps in order of first insertion

A table is an association list in which a key stands at most once when it is built by `insert`.
A second write to a key replaces the value in place, so the order is that of the first writes.

`get?_insert_self` and `get?_insert_of_ne` say what a write does to the look-up: the last write wins
and no other key changes.
-/

namespace Monotonicity

/-- A finite map from `κ` to `ν`, as pairs in order of first insertion. -/
structure Table (κ ν : Type) where
  entries : List (κ × ν) := []
deriving Repr

namespace Table

variable {κ ν : Type} [DecidableEq κ]

def find (key : κ) : List (κ × ν) → Option ν
  | [] => none
  | (k, v) :: rest => if k = key then some v else find key rest

/-- The pairs with `key` set to `f` of what it held, or added at the end. -/
def amend (key : κ) (f : Option ν → ν) : List (κ × ν) → List (κ × ν)
  | [] => [(key, f none)]
  | (k, v) :: rest => if k = key then (k, f (some v)) :: rest else (k, v) :: amend key f rest

def get? (t : Table κ ν) (key : κ) : Option ν := find key t.entries

/-- Changes the value under a key from what it was. -/
def alter (t : Table κ ν) (key : κ) (f : Option ν → ν) : Table κ ν := ⟨amend key f t.entries⟩

/-- Writes a value under a key, replacing any earlier one. -/
def insert (t : Table κ ν) (key : κ) (value : ν) : Table κ ν := t.alter key fun _ => value

theorem find_amend_self (key : κ) (f : Option ν → ν) (l : List (κ × ν)) :
    find key (amend key f l) = some (f (find key l)) := by
  induction l with
  | nil => simp [amend, find]
  | cons p rest ih =>
    obtain ⟨k, v⟩ := p
    by_cases h : k = key <;> simp [amend, find, h, ih]

theorem find_amend_of_ne {key other : κ} (h : other ≠ key) (f : Option ν → ν) (l : List (κ × ν)) :
    find other (amend key f l) = find other l := by
  induction l with
  | nil => simp [amend, find, Ne.symm h]
  | cons p rest ih =>
    obtain ⟨k, v⟩ := p
    by_cases hk : k = key
    · subst hk; simp [amend, find, Ne.symm h]
    · by_cases ho : k = other
      · subst ho; simp [amend, find, hk]
      · simp [amend, find, hk, ho, ih]

@[simp] theorem get?_alter_self (t : Table κ ν) (key : κ) (f : Option ν → ν) :
    (t.alter key f).get? key = some (f (t.get? key)) :=
  find_amend_self key f t.entries

theorem get?_alter_of_ne (t : Table κ ν) {key other : κ} (h : other ≠ key) (f : Option ν → ν) :
    (t.alter key f).get? other = t.get? other :=
  find_amend_of_ne h f t.entries

@[simp] theorem get?_insert_self (t : Table κ ν) (key : κ) (value : ν) :
    (t.insert key value).get? key = some value :=
  get?_alter_self t key _

theorem get?_insert_of_ne (t : Table κ ν) {key other : κ} (h : other ≠ key) (value : ν) :
    (t.insert key value).get? other = t.get? other :=
  get?_alter_of_ne t h _

end Table

end Monotonicity
