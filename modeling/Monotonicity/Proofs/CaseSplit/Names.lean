import Mathlib.Data.List.Nodup
import Monotonicity.Proofs.Search.Ends
import Monotonicity.Proofs.Term.Built

/-!
# New names

The names that a search mints one after the other are all different, and different from those that
were there before. So they can be made to stand for anything, and nothing else changes its meaning.
-/

namespace Monotonicity

namespace Symbols

variable {n m l : Nat} {names names' : List String}

/-- The names that `k` mintings make from a hint, from the `n`-th on. -/
def mintings (hint : String) (n k : Nat) : List String := (List.range' n k).map (minting hint)

/-- All different, and minted under numbers from `n` on and below `m`. -/
structure Fresh (n m : Nat) (names : List String) : Prop where
  le : n ≤ m
  nodup : names.Nodup
  new : ∀ name ∈ names, ¬ Known n name
  known : ∀ name ∈ names, Known m name

theorem fresh_nil : Fresh n n [] := ⟨le_rfl, .nil, by simp, by simp⟩

theorem Fresh.of_le (h : Fresh m l names) (hn : n ≤ m) : Fresh n l names :=
  ⟨hn.trans h.le, h.nodup, fun name hname hknown => h.new name hname (hknown.of_le hn), h.known⟩

theorem Fresh.append (h : Fresh n m names) (h' : Fresh m l names') :
    Fresh n l (names ++ names') := by
  have hdisjoint : names.Disjoint names' := by
    intro name hname hname'
    exact h'.new name hname' (h.known name hname)
  refine ⟨h.le.trans h'.le, List.nodup_append'.2 ⟨h.nodup, h'.nodup, hdisjoint⟩, ?_, ?_⟩
  · intro name hname
    rcases List.mem_append.1 hname with hname | hname
    · exact h.new name hname
    · exact (h'.of_le h.le).new name hname
  · intro name hname
    rcases List.mem_append.1 hname with hname | hname
    · exact (h.known name hname).of_le h'.le
    · exact h'.known name hname

theorem fresh_mintings (hint : String) (n k : Nat) : Fresh n (n + k) (mintings hint n k) := by
  refine ⟨Nat.le_add_right n k, ?_, ?_, ?_⟩
  · exact List.Nodup.map (fun i j hij => number_unique hij) (List.nodup_range' ..)
  · intro name hname hknown
    obtain ⟨i, hi, rfl⟩ := List.mem_map.1 hname
    have hlt : i < n := hknown hint i rfl
    have hle : n ≤ i := (List.mem_range'_1.1 hi).1
    omega
  · intro name hname
    obtain ⟨i, hi, rfl⟩ := List.mem_map.1 hname
    exact known_minting (List.mem_range'_1.1 hi).2

end Symbols

theorem Term.mintings_eq_map (hint : String) (n k : Nat) :
    Term.mintings hint n k = (Symbols.mintings hint n k).map Term.const := by
  simp [Term.mintings, Symbols.mintings, Term.minting]

/-! ## Making new names stand for something -/

/-- Different names can be made to stand for any elements, one for each. -/
theorem exists_assignment {α : Type*} {names : List String} (hnodup : names.Nodup) (v : String → α)
    {as : List α} (hlength : as.length = names.length) :
    ∃ v' : String → α, (∀ name, name ∉ names → v' name = v name) ∧ names.map v' = as := by
  induction names generalizing as with
  | nil => exact ⟨v, fun _ _ => rfl, (List.length_eq_zero_iff.1 hlength).symm⟩
  | cons name names ih =>
    obtain ⟨hname, hnames⟩ := List.nodup_cons.1 hnodup
    obtain ⟨a, as, rfl⟩ := List.exists_cons_of_length_eq_add_one hlength
    obtain ⟨v', hkeeps, hmap⟩ := ih hnames (Nat.succ.inj hlength)
    refine ⟨Function.update v' name a, fun other hother => ?_, ?_⟩
    · rw [List.mem_cons, not_or] at hother
      rw [Function.update_of_ne hother.1, hkeeps other hother.2]
    · have hrest : names.map (Function.update v' name a) = names.map v' := by
        refine List.map_congr_left fun other hother => Function.update_of_ne ?_ a v'
        rintro rfl
        exact hname hother
      rw [List.map_cons, Function.update_self, hrest, hmap]

end Monotonicity
