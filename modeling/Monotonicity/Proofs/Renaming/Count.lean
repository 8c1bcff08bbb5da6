import Monotonicity.Proofs.Renaming.Solution
import Monotonicity.Proofs.Term.Built

/-!
# Counting minted names from another number

The names that are minted from a hint differ by their numbers. `Renaming.recount n m` takes the
names with a number from `n` on to those with a number from `m` on and leaves all other names alone.
What a search mints from the count `0` is in this way taken to what it mints from any other count,
and two of these renamings lead from one count to another: this is `recount_mul`.
-/

namespace Monotonicity

namespace Symbols

variable {hint name : String} {n m i : Nat}

/-- The hint and the number of a name that is minted from an unmarked hint. -/
@[irreducible] def origin? (name : String) : Option (String × Nat) :=
  let hint := String.ofList (name.toList.takeWhile (· ≠ mark))
  let number := Nat.ofDigitChars 10 (name.toList.dropWhile (· ≠ mark)).tail 0
  if minting hint number = name then some (hint, number) else none

theorem ne_mark_of_unmarked (h : isMarked hint = false) :
    ∀ c ∈ hint.toList, decide (c ≠ mark) = true := by
  intro c hc
  simp only [decide_eq_true_eq]
  rintro rfl
  simp [isMarked, hc] at h

theorem origin?_minting (h : isMarked hint = false) (n : Nat) :
    origin? (minting hint n) = some (hint, n) := by
  have hname : (minting hint n).toList = hint.toList ++ mark :: Nat.toDigits 10 n := by
    simp [minting, mark, Nat.toString_eq_repr, Nat.toList_repr]
  have hhint : (minting hint n).toList.takeWhile (· ≠ mark) = hint.toList := by
    rw [hname, List.takeWhile_append_of_pos (ne_mark_of_unmarked h),
      List.takeWhile_cons_of_neg (by simp), List.append_nil]
  have hdigits : (minting hint n).toList.dropWhile (· ≠ mark) = mark :: Nat.toDigits 10 n := by
    rw [hname, List.dropWhile_append_of_pos (ne_mark_of_unmarked h),
      List.dropWhile_cons_of_neg (by simp)]
  simp only [origin?, hhint, hdigits, List.tail_cons, Nat.ofDigitChars_ten_toDigits,
    String.ofList_toList, if_true]

theorem eq_minting_of_origin? (h : origin? name = some (hint, n)) : name = minting hint n := by
  simp only [origin?, Option.ite_none_right_eq_some, Option.some.injEq, Prod.mk.injEq] at h
  obtain ⟨hname, rfl, rfl⟩ := h
  exact hname.symm

theorem unmarked_of_origin? (h : origin? name = some (hint, n)) : isMarked hint = false := by
  simp only [origin?, Option.ite_none_right_eq_some, Option.some.injEq, Prod.mk.injEq] at h
  obtain ⟨-, rfl, -⟩ := h
  simp only [isMarked, String.toList_ofList, List.contains_eq_mem, decide_eq_false_iff_not]
  intro hmem
  simpa using List.all_eq_true.1 List.all_takeWhile mark hmem

theorem origin?_of_unmarked (h : isMarked name = false) : origin? name = none := by
  cases horigin : origin? name with
  | none => rfl
  | some o =>
    rw [eq_minting_of_origin? horigin, isMarked_minting] at h
    cases h

/-- The name with its number counted from `m` where it was counted from `n`. -/
def recount (n m : Nat) (name : String) : String :=
  match origin? name with
  | some (hint, i) => if n ≤ i then minting hint (m + (i - n)) else name
  | none => name

theorem recount_minting (h : isMarked hint = false) (n m i : Nat) :
    recount n m (minting hint (n + i)) = minting hint (m + i) := by
  simp [recount, origin?_minting h]

theorem recount_of_unmarked (h : isMarked name = false) : recount n m name = name := by
  simp [recount, origin?_of_unmarked h]

/-- Counting from another number is counting from the start and then from there. -/
theorem recount_recount (n m : Nat) (name : String) :
    recount n m (recount 0 n name) = recount 0 m name := by
  cases h : origin? name with
  | none => simp [recount, h]
  | some o =>
    have hhint := unmarked_of_origin? h
    have hname := eq_minting_of_origin? h
    have hn := recount_minting hhint 0 n o.2
    have hm := recount_minting hhint 0 m o.2
    rw [Nat.zero_add, ← hname] at hn hm
    rw [hn, hm, recount_minting hhint]

theorem recount_self (n : Nat) (name : String) : recount n n name = name := by
  cases h : origin? name with
  | none => simp [recount, h]
  | some o =>
    simp only [recount, h]
    split
    · next hle => rw [Nat.add_sub_cancel' hle, ← eq_minting_of_origin? h]
    · rfl

/-- Names stay different when they are counted from another start. -/
theorem recount_injective (n : Nat) : Function.Injective (recount 0 n) := by
  intro a b h
  have hback : recount n 0 (recount 0 n a) = recount n 0 (recount 0 n b) := congrArg _ h
  rwa [recount_recount, recount_recount, recount_self, recount_self] at hback

end Symbols

/-- Counts the minted names from `m` where they were counted from `n`. -/
def Renaming.recount (n m : Nat) : Renaming := { name := Symbols.recount n m }

theorem Renaming.proper_recount (n : Nat) : (recount 0 n).Proper where
  injective := Symbols.recount_injective n
  reserved head h := by
    refine Symbols.recount_of_unmarked ?_
    revert head
    decide

/-! ## One renaming after the other -/

/-- The renaming that does first the right one and then the left one. -/
instance : Mul Renaming := ⟨fun r r' => ⟨r.shift + r'.shift, r.name ∘ r'.name⟩⟩

theorem Renaming.mul_def (r r' : Renaming) :
    r * r' = ⟨r.shift + r'.shift, r.name ∘ r'.name⟩ := rfl

theorem Renaming.recount_mul (n m : Nat) : recount n m * recount 0 n = recount 0 m := by
  have hname : Symbols.recount n m ∘ Symbols.recount 0 n = Symbols.recount 0 m := by
    funext name
    rw [Function.comp_apply, Symbols.recount_recount]
  simp only [mul_def, recount, hname]

section

variable (r r' : Renaming)

theorem Term.mul_smul (t : Term) : (r * r') • t = r • r' • t := by
  induction t using Term.induction with
  | var i => simp [HMul.hMul, Mul.mul, Nat.add_comm r.shift, Nat.add_assoc]
  | app head args ih =>
    simp only [smul_app, List.map_map]
    exact congrArg _ (List.map_congr_left ih)
  | cases s arms ihs ih =>
    simp only [smul_cases, List.map_map, ihs]
    refine congrArg _ (List.map_congr_left fun arm harm => ?_)
    change Arm.mk _ _ ((r * r') • arm.body) = _
    rw [ih arm harm]
    rfl

theorem Goal.mul_smul (goal : Goal) : (r * r') • goal = r • r' • goal := by
  cases goal <;> simp [Term.mul_smul]

theorem Pending.mul_smul (p : Pending) : (r * r') • p = r • r' • p := by
  obtain ⟨goal, hyps⟩ := p
  simp only [smul_mk, Goal.mul_smul, List.map_map]
  refine congrArg _ (List.map_congr_left fun h _ => ?_)
  cases h
  simp [Term.mul_smul]

mutual
theorem Proof.mul_smul : (p : Proof) → (r * r') • p = r • r' • p
  | .fact id w => by simp [Term.mul_smul]
  | .inclusion id => rfl
  | .hypothesis w => by simp [Term.mul_smul]
  | .deferred i => rfl
  | .step rule ps => by simp [Proof.mul_smul_all ps]

theorem Proof.mul_smul_all : (ps : List Proof) →
    ps.map ((r * r') • ·) = (ps.map (r' • ·)).map (r • ·)
  | [] => rfl
  | p :: ps => by simp [Proof.mul_smul p, Proof.mul_smul_all ps]
end

theorem Failure.mul_smul (why : Failure) : (r * r') • why = r • r' • why := by
  have hsubject (subject : Subject) : (r * r') • subject = r • r' • subject := by
    cases subject with
    | goal g => exact congrArg Subject.goal (Goal.mul_smul r r' g)
    | underway g => exact congrArg Subject.underway (Goal.mul_smul r r' g)
    | term t => exact congrArg Subject.term (Term.mul_smul r r' t)
    | text s => rfl
  cases why with
  | noCandidate subject => exact congrArg Failure.noCandidate (hsubject subject)
  | noRule subject => exact congrArg Failure.noRule (hsubject subject)
  | gap subject => exact congrArg Failure.gap (hsubject subject)
  | _ => rfl

theorem Conj.mul_smul (c : Conj) : (r * r') • c = r • r' • c := by
  induction c with
  | unit => rfl
  | hole => rfl
  | and p rest ih =>
    change Conj.and ((r * r') • p) ((r * r') • rest) = _
    rw [Pending.mul_smul, ih]
    rfl

theorem Verdict.mul_smul (v : Verdict) : (r * r') • v = r • r' • v := by
  cases v with
  | solved p => exact congrArg Verdict.solved (Proof.mul_smul r r' p)
  | deferred p c => exact congrArg₂ Verdict.deferred (Proof.mul_smul r r' p) (Conj.mul_smul r r' c)
  | failed why => exact congrArg Verdict.failed (Failure.mul_smul r r' why)

theorem Solution.mul_smul (sol : Solution) : (r * r') • sol = r • r' • sol := by
  have hbindings : sol.bindings.map (fun b => (b.1 + (r * r').shift, (r * r') • b.2)) =
      (sol.bindings.map fun b => (b.1 + r'.shift, r' • b.2)).map
        fun b => (b.1 + r.shift, r • b.2) := by
    rw [List.map_map]
    refine List.map_congr_left fun b _ => Prod.ext ?_ (Term.mul_smul r r' b.2)
    change b.1 + (r.shift + r'.shift) = b.1 + r'.shift + r.shift
    omega
  change Solution.mk ((r * r') • sol.goal) ((r * r') • sol.verdict) _ _ = _
  rw [Goal.mul_smul, Verdict.mul_smul, hbindings]
  rfl

theorem Answer.mul_smul (answer : Answer Solution) : (r * r') • answer = r • r' • answer := by
  obtain ⟨result, log⟩ := answer
  cases result with
  | error fault => rfl
  | ok sol => exact congrArg (fun sol => Answer.mk (.ok sol) log) (Solution.mul_smul r r' sol)

end

end Monotonicity
