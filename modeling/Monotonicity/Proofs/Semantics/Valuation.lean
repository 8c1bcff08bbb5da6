import Monotonicity.Proofs.Calculus.Basic
import Monotonicity.Proofs.Semantics.Interpretation

/-!
# Values of terms

A valuation says what symbols stand for, and the value of an application is that of its head applied
to the values of its arguments in turn. A valuation may differ from the interpretation's own on the
names that a search mints: so a new constant can be made to stand for any element.

A term is settled at a number if it is ground, holds no case analysis and holds no name minted under
that number or a later one. The value of a settled term does not depend on what later names stand
for. Goals and hypotheses are settled if their sides are and their relations are plain and ground.
-/

namespace Monotonicity

universe u

namespace Interpretation

variable {M : Interpretation.{u}} {v v' : String → M.Carrier} {P : String → Nat → Prop}
  {t u : Term} {xs ys : List Term}

mutual
/-- The value of a term if symbols stand for what `v` says. -/
def value (M : Interpretation.{u}) (v : String → M.Carrier) : Term → M.Carrier
  | .app head args => M.applyAll v (v head) args
  | t => M.other t

/-- An element applied to the values of terms in turn. -/
def applyAll (M : Interpretation.{u}) (v : String → M.Carrier) (f : M.Carrier) :
    List Term → M.Carrier
  | [] => f
  | t :: ts => M.applyAll v (M.apply f (M.value v t)) ts
end

@[simp] theorem value_app (head : String) (args : List Term) :
    M.value v (.app head args) = M.applyAll v (v head) args := by
  simp [value]

@[simp] theorem applyAll_nil (f : M.Carrier) : M.applyAll v f [] = f := by
  simp [applyAll]

@[simp] theorem applyAll_cons (f : M.Carrier) :
    M.applyAll v f (t :: xs) = M.applyAll v (M.apply f (M.value v t)) xs := by
  simp [applyAll]

theorem applyAll_append (f : M.Carrier) :
    M.applyAll v f (xs ++ ys) = M.applyAll v (M.applyAll v f xs) ys := by
  induction xs generalizing f with
  | nil => simp
  | cons t xs ih => simp [ih]

theorem applyAll_congr {f : M.Carrier}
    (h : List.Forall₂ (fun x y => M.value v x = M.value v' y) xs ys) :
    M.applyAll v f xs = M.applyAll v' f ys := by
  induction h generalizing f with
  | nil => simp
  | cons hxy _ ih => simp [hxy, ih]

/-- Only what the names in a term stand for matters. -/
theorem value_congr (ht : t.Built P) (h : ∀ head n, P head n → v head = v' head) :
    M.value v t = M.value v' t := by
  induction ht with
  | var i => simp [value]
  | app hhead _ ih =>
    rw [value_app, value_app, h _ _ hhead]
    exact applyAll_congr (List.forall₂_same.2 ih)

/-- A term with further arguments stands for what it stands for, applied to their values. -/
theorem value_of_extend? (h : t.extend? xs = some u) :
    M.value v u = M.applyAll v (M.value v t) xs := by
  cases t with
  | app head args =>
    simp only [Term.extend?, Option.some.injEq] at h
    rw [← h, value_app, value_app, applyAll_append]
  | var i => simp [Term.extend?] at h
  | cases s arms => simp [Term.extend?] at h

theorem value_of_applyArm? (h : applyArm? t xs = some u) :
    M.value v u = M.applyAll v (M.value v t) xs := by
  unfold applyArm? at h
  split at h
  · next hxs =>
    cases h
    obtain rfl : xs = [] := by simpa using hxs
    simp
  · exact value_of_extend? h

end Interpretation

/-! ## Settled terms -/

namespace Term

variable {t u : Term} {xs : List Term} {n m : Nat}

/-- A ground term without case analyses in which no name was minted under the number `n` or a later
one. -/
structure Settled (n : Nat) (t : Term) : Prop where
  ground : t.ground = true
  known : t.Built fun head _ => Symbols.Known n head

/-- A ground relation without case analyses and dependent arrows. -/
structure PlainGround (t : Term) : Prop where
  ground : t.ground = true
  plain : t.Plain

theorem Settled.of_le (h : t.Settled n) (hm : n ≤ m) : t.Settled m where
  ground := h.ground
  known := h.known.mono fun _ _ hk => hk.of_le hm

theorem settled_minting (hint : String) (h : n < m) : (Term.minting hint n).Settled m where
  ground := by simp [minting]
  known := by simpa [minting] using Symbols.known_minting h

theorem settled_app {head : String} :
    (Term.app head xs).Settled n ↔ Symbols.Known n head ∧ ∀ t ∈ xs, t.Settled n := by
  constructor
  · intro h
    obtain ⟨hhead, hargs⟩ := built_app.1 h.known
    exact ⟨hhead, fun t ht => ⟨ground_app.1 h.ground t ht, hargs t ht⟩⟩
  · rintro ⟨hhead, hargs⟩
    exact ⟨ground_app.2 fun t ht => (hargs t ht).ground,
      built_app.2 ⟨hhead, fun t ht => (hargs t ht).known⟩⟩

/-- An application is settled if and only if its parts are. -/
theorem settled_of_extend? (h : t.extend? xs = some u) :
    u.Settled n ↔ t.Settled n ∧ ∀ x ∈ xs, x.Settled n := by
  cases t with
  | app head args =>
    simp only [extend?, Option.some.injEq] at h
    rw [← h, settled_app, settled_app, List.forall_mem_append, and_assoc]
  | var i => simp [extend?] at h
  | cases s arms => simp [extend?] at h

theorem settled_of_applyArm? (h : applyArm? t xs = some u) :
    u.Settled n ↔ t.Settled n ∧ ∀ x ∈ xs, x.Settled n := by
  unfold applyArm? at h
  split at h
  · next hxs =>
    cases h
    obtain rfl : xs = [] := by simpa using hxs
    simp
  · exact settled_of_extend? h

theorem Settled.not_cases {arms : List (Arm Term)} : ¬ (Term.cases t arms).Settled n :=
  fun h => not_built_cases _ _ h.known

theorem PlainGround.of_mem_parts (h : t.PlainGround) (hu : u ∈ t.view.parts) : u.PlainGround where
  ground := by
    have hground := h.ground
    rw [← subst_var t] at hground
    simpa only [subst_var] using ground_of_mem_parts hground hu
  plain := Built.of_mem_parts h.plain hu

end Term

/-- The sides of the hypothesis are settled, and its relation is plain and ground. -/
structure Hypothesis.Settled (n : Nat) (h : Hypothesis) : Prop where
  rel : h.rel.PlainGround
  left : h.left.Settled n
  right : h.right.Settled n

theorem Hypothesis.Settled.of_le {h : Hypothesis} {n m : Nat} (hs : h.Settled n) (hm : n ≤ m) :
    h.Settled m :=
  ⟨hs.rel, hs.left.of_le hm, hs.right.of_le hm⟩

/-- The relations of the goal are plain and ground, and the terms to be related are settled. -/
inductive Goal.Settled (n : Nat) : Goal → Prop
  | related {rel left right : Term} (hrel : rel.PlainGround) (hleft : left.Settled n)
      (hright : right.Settled n) : Settled n (.related rel left right)
  | subrel {lesser greater : Term} (hlesser : lesser.PlainGround)
      (hgreater : greater.PlainGround) : Settled n (.subrel lesser greater)

theorem Goal.Settled.of_le {goal : Goal} {n m : Nat} (h : goal.Settled n) (hm : n ≤ m) :
    goal.Settled m := by
  cases h with
  | related hrel hleft hright => exact .related hrel (hleft.of_le hm) (hright.of_le hm)
  | subrel hlesser hgreater => exact .subrel hlesser hgreater

/-! ## Truth -/

namespace Interpretation

variable {M : Interpretation.{u}} {r : Registry} {v v' : String → M.Carrier} {n : Nat}
  {t : Term} {hyps : List Hypothesis}

/-- The interpretation respects the registry, equality is equality, and the registered facts hold.
-/
structure Models (M : Interpretation.{u}) (r : Registry) : Prop extends M.Orders r where
  equality : ∀ x y, M.relation .equality x y ↔ x = y
  facts : ∀ f ∈ r.facts, M.relation f.rel (M.value M.symbol f.left) (M.value M.symbol f.right)

/-- The goal is true if symbols stand for what `v` says. -/
def Holds (M : Interpretation.{u}) (v : String → M.Carrier) : Goal → Prop
  | .related rel left right => M.relation rel (M.value v left) (M.value v right)
  | .subrel lesser greater => M.Includes lesser greater

/-- The hypotheses are true if symbols stand for what `v` says. -/
def Assumes (M : Interpretation.{u}) (v : String → M.Carrier) (hyps : List Hypothesis) : Prop :=
  ∀ h ∈ hyps, M.relation h.rel (M.value v h.left) (M.value v h.right)

/-- The valuation differs from the interpretation's own on marked names only. -/
def Extends (M : Interpretation.{u}) (v : String → M.Carrier) : Prop :=
  ∀ name, Symbols.isMarked name = false → v name = M.symbol name

/-- The two valuations differ on names minted from the number `n` on only. -/
def Agree (M : Interpretation.{u}) (n : Nat) (v v' : String → M.Carrier) : Prop :=
  ∀ name, Symbols.Known n name → v name = v' name

theorem Agree.value_eq (h : M.Agree n v v') (ht : t.Settled n) : M.value v t = M.value v' t :=
  value_congr ht.known fun head _ => h head

theorem Agree.assumes (h : M.Agree n v v') (hs : ∀ h ∈ hyps, h.Settled n)
    (ha : M.Assumes v hyps) : M.Assumes v' hyps := by
  intro q hq
  rw [← h.value_eq (hs q hq).left, ← h.value_eq (hs q hq).right]
  exact ha q hq

theorem Agree.extends (h : M.Agree n v v') (hv : M.Extends v) : M.Extends v' :=
  fun name hname => (h name (Symbols.known_of_unmarked hname)).symm.trans (hv name hname)

/-- Two new constants can be made to stand for any elements. -/
theorem exists_agree (M : Interpretation.{u}) (n : Nat) (v : String → M.Carrier)
    (a b : M.Carrier) :
    ∃ v', M.Agree n v v' ∧ M.value v' (.minting "x" n) = a ∧
      M.value v' (.minting "y" (n + 1)) = b := by
  have hne : Symbols.minting "x" n ≠ Symbols.minting "y" (n + 1) :=
    fun h => absurd (Symbols.number_unique h) (by omega)
  refine ⟨Function.update (Function.update v (Symbols.minting "x" n) a)
    (Symbols.minting "y" (n + 1)) b, fun name hname => ?_, ?_, ?_⟩
  · rw [Function.update_of_ne (hname.ne (by omega)), Function.update_of_ne (hname.ne le_rfl)]
  · simp [Term.minting, Function.update_of_ne hne]
  · simp [Term.minting]

theorem Models.relation_equality {θ : Nat → Term} (hM : M.Models r)
    (ht : (t.subst θ).ground = true) (h : t.view = .equality) {x y : M.Carrier} :
    M.relation (t.subst θ) x y ↔ x = y := by
  have hcore : t.view.core? = some (false, .equality) := by rw [h]; rfl
  rw [hM.relation_view ht hcore, ← hM.equality]
  simp [directed, Term.equality]

end Interpretation

end Monotonicity
