import Monotonicity.Proofs.Order.Included
import Monotonicity.Proofs.Semantics.Ground

/-!
# Provability without a search

For simple terms the rules for related terms can be told without bindings, as those for inclusions
are by `Included`. `Provable` does so, with a bound on the height. It differs from the calculus of
proofs in that nothing is filled in and nothing is put off, and in that new constants are not
chosen: a goal on functions is reduced to goals on all constants that a search might mint.

That makes no difference, for a derivation may be read with other names for its minted constants.
Neither do hypotheses matter whose left side is headed by a name that the goal does not know. Both
is said by `Provable.transfer`. Of the relation of a goal it only matters what is seen of it
(`Provable.congr`).
-/

namespace Monotonicity

/-! ## Other names -/

/-- Other names for minted ones, and the same names for all others. -/
structure Symbols.Renaming (π : String → String) : Prop where
  unmarked : ∀ name, isMarked name = false → π name = name
  marked : ∀ name, isMarked name = true → isMarked (π name) = true

theorem Symbols.renaming_id : Renaming id := ⟨fun _ _ => rfl, fun _ => id⟩

theorem Symbols.Renaming.update {π : String → String} {x y : String} (h : Renaming π)
    (hx : isMarked x = true) (hy : isMarked y = true) : Renaming (Function.update π x y) where
  unmarked name hname := by
    rw [Function.update_of_ne (by rintro rfl; simp [hx] at hname)]
    exact h.unmarked name hname
  marked name hname := by
    by_cases heq : name = x
    · subst heq
      rwa [Function.update_self]
    · rw [Function.update_of_ne heq]
      exact h.marked name hname

namespace Term

variable {P : String → Nat → Prop} {t : Term} {π π' : String → String} {n : Nat}

mutual
/-- The term with other names for its heads. -/
def relabel (π : String → String) : Term → Term
  | .app head args => .app (π head) (relabelAll π args)
  | t => t

/-- The same for a list of terms. -/
def relabelAll (π : String → String) : List Term → List Term
  | [] => []
  | t :: ts => t.relabel π :: relabelAll π ts
end

theorem relabelAll_eq_map (ts : List Term) : relabelAll π ts = ts.map (relabel π) := by
  induction ts with
  | nil => simp [relabelAll]
  | cons t ts ih => simp [relabelAll, ih]

@[simp] theorem relabel_app (head : String) (args : List Term) :
    (Term.app head args).relabel π = .app (π head) (args.map (relabel π)) := by
  rw [relabel, relabelAll_eq_map]

/-- Only the names in a term matter. -/
theorem relabel_congr (ht : t.Built P) (h : ∀ head n, P head n → π head = π' head) :
    t.relabel π = t.relabel π' := by
  induction ht with
  | var i => simp [relabel]
  | app hhead _ ih => rw [relabel_app, relabel_app, h _ _ hhead, List.map_congr_left ih]

theorem relabel_eq_self (ht : t.Built P) (h : ∀ head n, P head n → π head = head) :
    t.relabel π = t := by
  induction ht with
  | var i => simp [relabel]
  | app hhead _ ih => rw [relabel_app, h _ _ hhead, List.map_congr_left ih, List.map_id']

/-- There is no minted name in a simple term. -/
theorem Simple.relabel_eq (ht : t.Simple) (hπ : Symbols.Renaming π) : t.relabel π = t :=
  relabel_eq_self ht.heads fun head _ hhead => hπ.unmarked head hhead.2

/-- In a settled term no name is minted later. -/
theorem Settled.relabel_update (ht : t.Settled n) {hint : String} {m : Nat} (hm : n ≤ m)
    (y : String) : t.relabel (Function.update π (Symbols.minting hint m) y) = t.relabel π :=
  relabel_congr ht.known fun _ _ hhead => Function.update_of_ne (hhead.ne hm) ..

theorem Settled.relabel_id (ht : t.Settled n) : t.relabel id = t :=
  relabel_eq_self ht.known fun _ _ _ => rfl

/-- Two new constants can be given any names that might be minted. -/
theorem exists_renaming (hπ : Symbols.Renaming π) (n : Nat) {x y : String}
    (hx : Symbols.isMarked x = true) (hy : Symbols.isMarked y = true) :
    ∃ π', Symbols.Renaming π' ∧ (∀ t : Term, t.Settled n → t.relabel π' = t.relabel π) ∧
      (Term.minting "x" n).relabel π' = .const x ∧
      (Term.minting "y" (n + 1)).relabel π' = .const y := by
  have hne : Symbols.minting "x" n ≠ Symbols.minting "y" (n + 1) :=
    fun h => absurd (Symbols.number_unique h) (by omega)
  refine ⟨Function.update (Function.update π (Symbols.minting "x" n) x)
    (Symbols.minting "y" (n + 1)) y, ?_, fun t ht => ?_, ?_, ?_⟩
  · exact (hπ.update (Symbols.isMarked_minting ..) hx).update (Symbols.isMarked_minting ..) hy
  · rw [ht.relabel_update (by omega), ht.relabel_update le_rfl]
  · simp [Term.minting, Function.update_of_ne hne]
  · simp [Term.minting]

/-- An application with other names, and a further argument with names of its own. -/
theorem relabel_applied {head : String} {args : List Term} {u : Term}
    (h : (Term.app head args).relabel π' = (Term.app head args).relabel π) (ht : t.relabel π' = u) :
    (Term.app head (args ++ [t])).relabel π' = .app (π head) (args.map (relabel π) ++ [u]) := by
  simp only [relabel_app, Term.app.injEq] at h
  simp [h, ht]

/-- The name does not occur in the term. -/
def Avoids (a : String) (t : Term) : Prop := t.Built fun head _ => head ≠ a

theorem Settled.avoids (ht : t.Settled n) {hint : String} {m : Nat} (hm : n ≤ m) :
    t.Avoids (Symbols.minting hint m) :=
  ht.known.mono fun _ _ hhead => hhead.ne hm

theorem avoids_app {a head : String} {args : List Term} :
    (Term.app head args).Avoids a ↔ head ≠ a ∧ ∀ t ∈ args, t.Avoids a :=
  built_app

theorem Avoids.applied {a head x : String} {args : List Term} (h : (Term.app head args).Avoids a)
    (hx : x ≠ a) : (Term.app head (args ++ [.const x])).Avoids a := by
  rw [avoids_app] at h ⊢
  refine ⟨h.1, List.forall_mem_append.2 ⟨h.2, List.forall_mem_singleton.2 ?_⟩⟩
  exact avoids_app.2 ⟨hx, by simp⟩

theorem Settled.applied {head : String} {args : List Term} (h : (Term.app head args).Settled n)
    {m : Nat} (hm : n ≤ m) (ht : t.Settled m) : (Term.app head (args ++ [t])).Settled m := by
  have hargs := settled_app.1 (h.of_le hm)
  exact settled_app.2 ⟨hargs.1, List.forall_mem_append.2 ⟨hargs.2, List.forall_mem_singleton.2 ht⟩⟩

end Term

namespace Goal

/-- The goal with other names in the terms to be related. -/
def relabel (π : String → String) : Goal → Goal
  | .related rel left right => .related rel (left.relabel π) (right.relabel π)
  | .subrel lesser greater => .subrel lesser greater

/-- The terms to be related have the property. -/
def Sides (P : Term → Prop) : Goal → Prop
  | .related _ left right => P left ∧ P right
  | .subrel _ _ => True

theorem Settled.relabel_id {goal : Goal} {n : Nat} (h : goal.Settled n) :
    goal.relabel id = goal := by
  cases h with
  | related hrel hleft hright => rw [relabel, hleft.relabel_id, hright.relabel_id]
  | subrel hlesser hgreater => rfl

theorem Settled.avoids {goal : Goal} {n m : Nat} (h : goal.Settled n) {hint : String} (hm : n ≤ m) :
    goal.Sides (Term.Avoids (Symbols.minting hint m)) := by
  cases h with
  | related hrel hleft hright => exact ⟨hleft.avoids hm, hright.avoids hm⟩
  | subrel hlesser hgreater => trivial

end Goal

/-! ## Eliminating arguments -/

variable {σ : Subst} {i j : Nat} {rel rel' a b : Term} {pairs : List (Term × Term)}
  {edges : List Premise} {owed : List Goal} {π : String → String}

/-- What a relation asks of a pair is asked of the pair with other names. -/
theorem Straight.relabel (h : Straight σ i rel a b j rel' [] owed) (π : String → String) :
    Straight σ i rel (a.relabel π) (b.relabel π) j rel' [] (owed.map (Goal.relabel π)) := by
  cases h with
  | arrow h => exact .arrow h
  | equality h => exact .equality h
  | top h => exact .top h

theorem Passes.relabel (h : Passes σ i rel a b j rel' [] owed) (π : String → String) :
    Passes σ i rel (a.relabel π) (b.relabel π) j rel' [] (owed.map (Goal.relabel π)) := by
  cases h with
  | straight h => exact .straight (h.relabel π)
  | symmetric hrel hinner h => exact .symmetric hrel hinner (h.relabel π)
  | converse hrel hinner h => exact .converse hrel hinner (h.relabel π)

theorem Eliminates.relabel (h : Eliminates σ i rel pairs j rel' [] owed) (π : String → String) :
    Eliminates σ i rel (pairs.map (Prod.map (Term.relabel π) (Term.relabel π))) j rel' []
      (owed.map (Goal.relabel π)) := by
  generalize hedges : ([] : List Premise) = edges at h
  induction h with
  | nil => exact .nil
  | @cons n m m' l rel rel' rel'' a b rest edges edges' owed owed' h hm _ ih =>
    obtain ⟨rfl, rfl⟩ := List.append_eq_nil_iff.1 hedges.symm
    have hall := Eliminates.cons (h.relabel π) hm (ih rfl)
    rw [List.map_append]
    exact hall

/-- A plain relation asks for no edges, and leads to a plain relation. What it leaves to be proved
is about pairs of the arguments. -/
structure Clears (pairs : List (Term × Term)) (rel' : Term) (edges : List Premise)
    (owed : List Goal) : Prop where
  edges : edges = []
  reached : rel'.PlainGround
  owed : ∀ g ∈ owed, ∃ dom a b, dom.PlainGround ∧ (a, b) ∈ pairs ∧
    (g = .related dom a b ∨ g = .related dom b a)

theorem Straight.clears (h : Straight σ i rel a b j rel' edges owed) (hrel : rel.PlainGround) :
    Clears [(a, b)] rel' edges owed := by
  cases h with
  | arrow h =>
    rename_i dom
    have hparts : ∀ u ∈ [dom, rel'], u.PlainGround := fun u hu =>
      hrel.of_mem_parts (by simpa [h, View.parts] using hu)
    rw [List.forall_mem_cons, List.forall_mem_singleton] at hparts
    refine ⟨rfl, hparts.2, List.forall_mem_singleton.2 ?_⟩
    exact ⟨dom, a, b, hparts.1, List.mem_cons_self, .inl rfl⟩
  | edge h => exact (hrel.plain.view_ne_dependent _ _ h).elim
  | newEdge h => exact (hrel.plain.view_ne_dependent _ _ h).elim
  | equality h =>
    refine ⟨rfl, hrel, List.forall_mem_singleton.2 ?_⟩
    exact ⟨rel, a, b, hrel, List.mem_cons_self, .inl rfl⟩
  | top h => exact ⟨rfl, hrel, by simp⟩

theorem Passes.clears (h : Passes σ i rel a b j rel' edges owed) (hrel : rel.PlainGround) :
    Clears [(a, b)] rel' edges owed := by
  cases h with
  | straight h => exact h.clears hrel
  | symmetric hview _ h => exact h.clears (hrel.of_mem_parts (by simp [hview, View.parts]))
  | converse hview _ h =>
    have hclears := h.clears (hrel.of_mem_parts (by simp [hview, View.parts]))
    refine ⟨hclears.edges, hclears.reached.flip, fun g hg => ?_⟩
    obtain ⟨dom, a', b', hdom, hab, hgoal⟩ := hclears.owed g hg
    obtain ⟨rfl, rfl⟩ : a' = b ∧ b' = a := by simpa using hab
    exact ⟨dom, b', a', hdom, by simp, hgoal.symm⟩

theorem Eliminates.clears (h : Eliminates σ i rel pairs j rel' edges owed)
    (hrel : rel.PlainGround) : Clears pairs rel' edges owed := by
  induction h with
  | nil => exact ⟨rfl, hrel, by simp⟩
  | @cons n m m' l rel rel' rel'' a b rest edges edges' owed owed' h hm _ ih =>
    have hfirst := h.clears hrel
    have hrest := ih hfirst.reached
    refine ⟨by rw [hfirst.edges, hrest.edges]; rfl, hrest.reached, fun g hg => ?_⟩
    rcases List.mem_append.1 hg with hg | hg
    · obtain ⟨dom, a', b', hdom, hab, hgoal⟩ := hfirst.owed g hg
      exact ⟨dom, a', b', hdom, by simp_all, hgoal⟩
    · obtain ⟨dom, a', b', hdom, hab, hgoal⟩ := hrest.owed g hg
      exact ⟨dom, a', b', hdom, List.mem_cons_of_mem _ hab, hgoal⟩

/-- What is left to be proved is settled if the arguments are. -/
theorem Clears.settled (h : Clears pairs rel' edges owed) {n : Nat}
    (hpairs : ∀ a b, (a, b) ∈ pairs → a.Settled n ∧ b.Settled n) : ∀ g ∈ owed, g.Settled n := by
  intro g hg
  obtain ⟨dom, a, b, hdom, hab, rfl | rfl⟩ := h.owed g hg
  · exact .related hdom (hpairs a b hab).1 (hpairs a b hab).2
  · exact .related hdom (hpairs a b hab).2 (hpairs a b hab).1

theorem Clears.sides (h : Clears pairs rel' edges owed) {P : Term → Prop}
    (hpairs : ∀ a b, (a, b) ∈ pairs → P a ∧ P b) : ∀ g ∈ owed, g.Sides P := by
  intro g hg
  obtain ⟨dom, a, b, -, hab, rfl | rfl⟩ := h.owed g hg
  · exact hpairs a b hab
  · exact (hpairs a b hab).symm

/-! ## Provability -/

/-- The facts that a look-up goes through. -/
def Registry.lookup (r : Registry) (side : Side) (head : String) : Batch → List Nat
  | .exact k => r.byShape side head k
  | .parameters _ _ => r.byHead side head

/-- What a look-up for a left side finds: a hypothesis or a fact, with its relation and sides. -/
inductive Registry.Offers (r : Registry) (hyps : List Hypothesis) (batch : Batch) :
    Term → Term → Term → Prop
  | hypothesis {h : Hypothesis} {f : String} {as : List Term} {right : Term} (hh : h ∈ hyps)
      (hleft : h.left = .app f as) (hright : h.right = right)
      (hcovers : batch.covers as.length = true) : Offers r hyps batch h.rel (.app f as) right
  | fact {fact : Fact} {id : Nat} {f : String} {as : List Term} {right : Term}
      (hid : id ∈ r.lookup .left f batch) (hfact : r.facts[id]? = some fact)
      (hleft : fact.left = .app f as) (hright : fact.right = right)
      (hcovers : batch.covers as.length = true) : Offers r hyps batch fact.rel (.app f as) right

/-- The goal is proved from the hypotheses, by a derivation of at most this height. -/
inductive Provable (r : Registry) : Nat → List Hypothesis → Goal → Prop
  | subrel {n hyps lesser greater} (h : Included r n lesser greater) :
      Provable r n hyps (.subrel lesser greater)
  | top {n hyps rel left right} (h : rel.view = .top) : Provable r n hyps (.related rel left right)
  | equal {n hyps rel term} (h : rel.view = .equality) : Provable r n hyps (.related rel term term)
  | flip {n hyps rel inner left right} (hview : rel.view = .flip inner)
      (h : Provable r n hyps (.related inner right left)) :
      Provable r (n + 1) hyps (.related rel left right)
  /-- The constants are any that might be minted. -/
  | arrow {n hyps rel dom cod f g xs ys} (hview : rel.view = .arrow dom cod)
      (h : ∀ x y name, Symbols.isMarked x = true → Symbols.isMarked y = true →
        Provable r n (hyps ++ [⟨dom, .const x, .const y, name⟩])
          (.related cod (.app f (xs ++ [.const x])) (.app g (ys ++ [.const y])))) :
      Provable r (n + 1) hyps (.related rel (.app f xs) (.app g ys))
  /-- A fact or hypothesis with its further arguments eliminated, and the relation reached bridged
  to the one wanted. -/
  | monotone {n hyps rel f g as bs xs ys batch crel σ i j reached owed}
      (hbatch : batch ∈ Batch.plan (r.parameters.get? f) (as ++ xs).length)
      (hc : r.Offers hyps batch crel (.app f as) (.app g bs)) (hlen : xs.length = ys.length)
      (helim : Eliminates σ i crel (xs.zip ys) j reached [] owed)
      (hbridge : Included r n reached rel) (howed : ∀ goal ∈ owed, Provable r n hyps goal) :
      Provable r (n + 1) hyps (.related rel (.app f (as ++ xs)) (.app g (bs ++ ys)))
  | congruence {n hyps rel f xs ys} (hview : rel.view = .equality) (hlen : xs.length = ys.length)
      (hne : xs ≠ []) (hargs : ∀ x y, (x, y) ∈ xs.zip ys → Provable r n hyps (.related rel x y)) :
      Provable r (n + 1) hyps (.related rel (.app f xs) (.app f ys))

/-- What is registered is stated in simple terms, and only unmarked names have parameters. -/
structure Registry.Tidy (r : Registry) : Prop extends r.Simple where
  parameters : ∀ head, Symbols.isMarked head = true → r.parameters.get? head = none

variable {r : Registry} {n m : Nat} {hyps hyps' : List Hypothesis} {goal : Goal} {left right : Term}
  {batch : Batch} {f g : String} {as bs : List Term}

/-- What a look-up finds has a plain relation and settled sides. -/
theorem Registry.Offers.settled (hreg : r.Simple) (hhyps : ∀ h ∈ hyps, h.Settled n)
    (h : r.Offers hyps batch rel left right) :
    rel.PlainGround ∧ left.Settled n ∧ right.Settled n := by
  cases h with
  | hypothesis hh hleft hright =>
    subst hright
    exact ⟨(hhyps _ hh).rel, hleft ▸ (hhyps _ hh).left, (hhyps _ hh).right⟩
  | fact _ hfact hleft hright =>
    obtain ⟨hrel, hl, hr⟩ := hreg.facts _ (Array.mem_of_getElem? hfact)
    subst hright
    exact ⟨hrel.plainGround, hleft ▸ hl.settled n, hr.settled n⟩

namespace Provable

theorem mono (h : Provable r n hyps goal) (hm : n ≤ m) : Provable r m hyps goal := by
  induction h generalizing m with
  | subrel h => exact .subrel (h.mono hm)
  | top h => exact .top h
  | equal h => exact .equal h
  | flip hview _ ih =>
    obtain ⟨m, rfl⟩ := Nat.exists_eq_add_of_lt hm
    exact .flip hview (ih (by omega))
  | arrow hview _ ih =>
    obtain ⟨m, rfl⟩ := Nat.exists_eq_add_of_lt hm
    exact .arrow hview fun x y name hx hy => ih x y name hx hy (by omega)
  | monotone hbatch hc hlen helim hbridge _ ih =>
    obtain ⟨m, rfl⟩ := Nat.exists_eq_add_of_lt hm
    exact .monotone hbatch hc hlen helim (hbridge.mono (by omega)) fun g hg => ih g hg (by omega)
  | congruence hview hlen hne _ ih =>
    obtain ⟨m, rfl⟩ := Nat.exists_eq_add_of_lt hm
    exact .congruence hview hlen hne fun x y hxy => ih x y hxy (by omega)

/-- Of the relation of a goal it only matters what is seen. -/
theorem congr (h : Provable r n hyps (.related rel left right)) (hview : rel.view = rel'.view) :
    Provable r n hyps (.related rel' left right) := by
  generalize hgoal : Goal.related rel left right = goal at h
  induction h generalizing left right with
  | subrel h => cases hgoal
  | top h =>
    cases hgoal
    exact .top (hview ▸ h)
  | equal h =>
    cases hgoal
    exact .equal (hview ▸ h)
  | flip hv h =>
    cases hgoal
    exact .flip (hview ▸ hv) h
  | arrow hv h =>
    cases hgoal
    exact .arrow (hview ▸ hv) h
  | monotone hbatch hc hlen helim hbridge howed =>
    cases hgoal
    exact .monotone hbatch hc hlen helim (hbridge.congr_greater hview) howed
  | congruence hv hlen hne _ ih =>
    cases hgoal
    exact .congruence (hview ▸ hv) hlen hne fun x y hxy => ih x y hxy rfl

end Provable

/-! ## Derivations with other names -/

/-- What the hypothesis states is stated with other names by one of the others, or it does not
matter: its left side is headed by a name that the goal does not know. -/
def Hypothesis.Carried (π : String → String) (hyps' : List Hypothesis) (goal : Goal)
    (h : Hypothesis) : Prop :=
  (∃ h' ∈ hyps', h'.rel = h.rel ∧ h'.left = h.left.relabel π ∧ h'.right = h.right.relabel π) ∨
    ∃ a args, h.left = .app a args ∧ goal.Sides (Term.Avoids a)

/-- The condition is on the terms to be related only. -/
theorem Hypothesis.Carried.imp {h : Hypothesis} {goal' : Goal} (hc : h.Carried π hyps' goal)
    (himp : ∀ a, goal.Sides (Term.Avoids a) → goal'.Sides (Term.Avoids a)) :
    h.Carried π hyps' goal' := by
  rcases hc with hc | ⟨a, args, hleft, ha⟩
  · exact .inl hc
  · exact .inr ⟨a, args, hleft, himp a ha⟩

/-- What is found for a goal is found under other names. -/
theorem Registry.Offers.relabel (hreg : r.Simple) (hπ : Symbols.Renaming π)
    (h : r.Offers hyps batch rel (.app f as) (.app g bs))
    (hcarried : ∀ h ∈ hyps, ∀ args, h.left = .app f args →
      ∃ h' ∈ hyps', h'.rel = h.rel ∧ h'.left = h.left.relabel π ∧ h'.right = h.right.relabel π) :
    r.Offers hyps' batch rel (.app (π f) (as.map (Term.relabel π)))
      (.app (π g) (bs.map (Term.relabel π))) := by
  cases h with
  | hypothesis hh hleft hright hcovers =>
    obtain ⟨h', hh', hrel, hl, hr⟩ := hcarried _ hh as hleft
    rw [hleft, Term.relabel_app] at hl
    rw [hright, Term.relabel_app] at hr
    rw [← hrel]
    exact .hypothesis hh' hl hr (by rwa [List.length_map])
  | fact hid hfact hleft hright hcovers =>
    obtain ⟨-, hl, hr⟩ := hreg.facts _ (Array.mem_of_getElem? hfact)
    rw [hleft] at hl
    rw [hright] at hr
    rw [← Term.relabel_app, ← Term.relabel_app, hl.relabel_eq hπ, hr.relabel_eq hπ]
    exact .fact hid hfact hleft hright hcovers

/-- The look-ups for a head are those for its other name. -/
theorem Registry.Tidy.plan_eq (hreg : r.Tidy) (hπ : Symbols.Renaming π) (f : String) (k : Nat) :
    Batch.plan (r.parameters.get? (π f)) k = Batch.plan (r.parameters.get? f) k := by
  cases hf : Symbols.isMarked f with
  | false => rw [hπ.unmarked f hf]
  | true => rw [hreg.parameters f hf, hreg.parameters (π f) (hπ.marked f hf)]

/-- The goal on two functions applied to new constants, with the hypothesis on these, is settled. -/
theorem Goal.Settled.body {dom cod : Term} (name : Term) (hview : rel.view = .arrow dom cod)
    (h : (Goal.related rel (.app f as) (.app g bs)).Settled m) (hhyps : ∀ h ∈ hyps, h.Settled m) :
    (Goal.related cod (.app f (as ++ [.minting "x" m]))
        (.app g (bs ++ [.minting "y" (m + 1)]))).Settled (m + 2) ∧
      ∀ h ∈ hyps ++ [⟨dom, .minting "x" m, .minting "y" (m + 1), name⟩], h.Settled (m + 2) := by
  have hx : (Term.minting "x" m).Settled (m + 2) := Term.settled_minting "x" (by omega)
  have hy : (Term.minting "y" (m + 1)).Settled (m + 2) := Term.settled_minting "y" (by omega)
  cases h with
  | related hrel hleft hright =>
    have hdom : dom.PlainGround := hrel.of_mem_parts (by simp [hview, View.parts])
    have hcod : cod.PlainGround := hrel.of_mem_parts (by simp [hview, View.parts])
    refine ⟨.related hcod (hleft.applied (by omega) hx) (hright.applied (by omega) hy), ?_⟩
    refine List.forall_mem_append.2 ⟨fun h hh => (hhyps h hh).of_le (by omega), ?_⟩
    exact List.forall_mem_singleton.2 ⟨hdom, hx, hy⟩

/-- The same goal with other names, by which the new constants are called `x` and `y`. -/
theorem Goal.Settled.relabel_body {cod : Term} {x y : String}
    (h : (Goal.related rel (.app f as) (.app g bs)).Settled m)
    (hold : ∀ t : Term, t.Settled m → t.relabel π' = t.relabel π)
    (hx : (Term.minting "x" m).relabel π' = .const x)
    (hy : (Term.minting "y" (m + 1)).relabel π' = .const y) :
    (Goal.related cod (.app f (as ++ [.minting "x" m]))
        (.app g (bs ++ [.minting "y" (m + 1)]))).relabel π' =
      .related cod (.app (π f) (as.map (Term.relabel π) ++ [.const x]))
        (.app (π g) (bs.map (Term.relabel π) ++ [.const y])) := by
  cases h with
  | related hrel hleft hright =>
    rw [Goal.relabel, Term.relabel_applied (hold _ hleft) hx,
      Term.relabel_applied (hold _ hright) hy]

/-- What is carried for two functions is carried for the functions applied to new constants, to
which the other names are given. -/
theorem Hypothesis.Carried.body {π' : String → String} {x y : String} {dom cod : Term}
    (name name' : Term)
    (hold : ∀ t : Term, t.Settled m → t.relabel π' = t.relabel π)
    (hx : (Term.minting "x" m).relabel π' = .const x)
    (hy : (Term.minting "y" (m + 1)).relabel π' = .const y) (hhyps : ∀ h ∈ hyps, h.Settled m)
    (hcarried : ∀ h ∈ hyps, h.Carried π hyps' (.related rel (.app f as) (.app g bs))) :
    ∀ h ∈ hyps ++ [⟨dom, .minting "x" m, .minting "y" (m + 1), name⟩],
      h.Carried π' (hyps' ++ [⟨dom, .const x, .const y, name'⟩])
        (.related cod (.app f (as ++ [.minting "x" m]))
          (.app g (bs ++ [.minting "y" (m + 1)]))) := by
  refine List.forall_mem_append.2 ⟨fun h hh => ?_, List.forall_mem_singleton.2 ?_⟩
  · rcases hcarried h hh with ⟨h', hh', hrel, hl, hr⟩ | ⟨a, args, hl, ha⟩
    · refine .inl ⟨h', List.mem_append_left _ hh', hrel, ?_, ?_⟩
      · rw [hl, hold _ (hhyps h hh).left]
      · rw [hr, hold _ (hhyps h hh).right]
    · have hknown := (Term.settled_app.1 (hl ▸ (hhyps h hh).left)).1
      refine .inr ⟨a, args, hl, ?_, ?_⟩
      · exact ha.1.applied (hknown.ne le_rfl).symm
      · exact ha.2.applied (hknown.ne (by omega)).symm
  · exact .inl ⟨_, List.mem_append_right _ List.mem_cons_self, rfl, hx.symm, hy.symm⟩

/-- A derivation with other names, from hypotheses that state as much as matters. -/
theorem Provable.transfer (hreg : r.Tidy) (h : Provable r n hyps goal) (hπ : Symbols.Renaming π)
    (hgoal : goal.Settled m) (hhyps : ∀ h ∈ hyps, h.Settled m)
    (hcarried : ∀ h ∈ hyps, h.Carried π hyps' goal) : Provable r n hyps' (goal.relabel π) := by
  induction h generalizing m π hyps' with
  | subrel h => exact .subrel h
  | top h => exact .top h
  | equal h => exact .equal h
  | @flip n hyps rel inner left right hview _ ih =>
    cases hgoal with
    | related hrel hleft hright =>
      have hinner : inner.PlainGround := hrel.of_mem_parts (by simp [hview, View.parts])
      exact .flip hview (ih hπ (.related hinner hright hleft) hhyps fun h hh =>
        (hcarried h hh).imp fun _ => And.symm)
  | @arrow n hyps rel dom cod f g xs ys hview _ ih =>
    simp only [Goal.relabel, Term.relabel_app]
    refine .arrow hview fun x y name hx hy => ?_
    -- two names that nothing knows yet take the place of `x` and `y` in the derivation
    obtain ⟨π', hπ', hold, hx', hy'⟩ := Term.exists_renaming hπ m hx hy
    obtain ⟨hgoal', hhyps'⟩ := hgoal.body name hview hhyps
    have hbody : Provable r n (hyps' ++ [⟨dom, .const x, .const y, name⟩])
        ((Goal.related cod (.app f (xs ++ [.minting "x" m]))
          (.app g (ys ++ [.minting "y" (m + 1)]))).relabel π') :=
      ih _ _ name (Symbols.isMarked_minting ..) (Symbols.isMarked_minting ..) hπ' hgoal' hhyps'
        (.body name name hold hx' hy' hhyps hcarried)
    rwa [hgoal.relabel_body hold hx' hy'] at hbody
  | @monotone n hyps rel f g as bs xs ys batch crel σ i j reached owed hbatch hc hlen helim hbridge
      _ ih =>
    cases hgoal with
    | related hrel hleft hright =>
      rw [Term.settled_app, List.forall_mem_append] at hleft hright
      have hpairs {P : Term → Prop} (hxs : ∀ t ∈ xs, P t) (hys : ∀ t ∈ ys, P t) :
          ∀ a b, (a, b) ∈ xs.zip ys → P a ∧ P b :=
        fun a b hab => ⟨hxs a (List.of_mem_zip hab).1, hys b (List.of_mem_zip hab).2⟩
      have hclears := helim.clears (hc.settled hreg.toSimple hhyps).1
      have helim' := helim.relabel π
      rw [← List.zip_map] at helim'
      simp only [Goal.relabel, Term.relabel_app, List.map_append]
      refine .monotone ?_ (hc.relabel hreg.toSimple hπ fun h hh args hl => ?_) (by simpa using hlen)
        helim' hbridge (List.forall_mem_map.2 fun goal hgoal => ?_)
      · simpa [hreg.plan_eq hπ] using hbatch
      · rcases hcarried h hh with hc | ⟨a, args', hl', ha⟩
        · exact hc
        · -- a hypothesis that does not matter is not one for the left side
          rw [hl] at hl'
          cases hl'
          exact ((Term.avoids_app.1 ha.1).1 rfl).elim
      · refine ih goal hgoal hπ (hclears.settled (hpairs hleft.2.2 hright.2.2) goal hgoal) hhyps
          fun h hh => (hcarried h hh).imp fun a ha => ?_
        refine hclears.sides (hpairs (fun t ht => ?_) fun t ht => ?_) goal hgoal
        · exact (Term.avoids_app.1 ha.1).2 t (List.mem_append_right _ ht)
        · exact (Term.avoids_app.1 ha.2).2 t (List.mem_append_right _ ht)
  | @congruence n hyps rel f xs ys hview hlen hne _ ih =>
    cases hgoal with
    | related hrel hleft hright =>
      rw [Term.settled_app] at hleft hright
      simp only [Goal.relabel, Term.relabel_app]
      refine .congruence hview (by simpa using hlen) (by simpa using hne) fun x y hxy => ?_
      rw [List.zip_map, List.mem_map] at hxy
      obtain ⟨⟨x, y⟩, hxy, heq⟩ := hxy
      obtain ⟨rfl, rfl⟩ := Prod.mk.inj heq
      obtain ⟨hx, hy⟩ := List.of_mem_zip hxy
      refine ih x y hxy hπ (.related hrel (hleft.2 x hx) (hright.2 y hy)) hhyps fun h hh => ?_
      refine (hcarried h hh).imp fun a ha => ?_
      exact ⟨(Term.avoids_app.1 ha.1).2 x hx, (Term.avoids_app.1 ha.2).2 y hy⟩

/-- It is enough to relate two functions applied to new constants. -/
theorem Provable.arrow_of_new (hreg : r.Tidy) {dom cod name : Term}
    (hview : rel.view = .arrow dom cod)
    (hgoal : (Goal.related rel (.app f as) (.app g bs)).Settled m) (hhyps : ∀ h ∈ hyps, h.Settled m)
    (h : Provable r n (hyps ++ [⟨dom, .minting "x" m, .minting "y" (m + 1), name⟩])
      (.related cod (.app f (as ++ [.minting "x" m])) (.app g (bs ++ [.minting "y" (m + 1)])))) :
    Provable r (n + 1) hyps (.related rel (.app f as) (.app g bs)) := by
  refine .arrow hview fun x y name' hx hy => ?_
  obtain ⟨π', hπ', hold, hx', hy'⟩ := Term.exists_renaming Symbols.renaming_id m hx hy
  obtain ⟨hgoal', hhyps'⟩ := hgoal.body name hview hhyps
  have hcarried : ∀ h ∈ hyps, h.Carried id hyps (.related rel (.app f as) (.app g bs)) :=
    fun h hh => .inl ⟨h, hh, rfl, (hhyps h hh).left.relabel_id.symm,
      (hhyps h hh).right.relabel_id.symm⟩
  have hbody := h.transfer hreg hπ' hgoal' hhyps' (.body name name' hold hx' hy' hhyps hcarried)
  have hkeep := hgoal.relabel_id
  simp only [Goal.relabel, Term.relabel_app, Goal.related.injEq, Term.app.injEq] at hkeep
  rwa [hgoal.relabel_body hold hx' hy', hkeep.2.1.2, hkeep.2.2.2] at hbody

end Monotonicity
