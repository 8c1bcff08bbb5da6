import Monotonicity.Proofs.Semantics.Valuation

/-!
# Eliminating arguments is sound

Taking pairs of arguments through a plain relation leaves no edges to be proved, and a plain
relation again. If the goals on the arguments hold, then what was related by the first relation
goes, applied to the arguments, to what is related by the last one: this is `Eliminates.transfers`,
by induction over the pairs, from `Passes.transfers` for one of them.
-/

namespace Monotonicity

universe u

variable {M : Interpretation.{u}} {r : Registry} {σ : Subst} {n m k : Nat}
  {rel rel' rel'' a b inner : Term} {pairs pairs' : List (Term × Term)} {edges : List Premise}
  {owed owed' : List Goal}

/-- The relation reached is plain, the goals that it took are settled, and if they hold, then
related elements applied to the arguments are related by it. -/
structure Transfers (M : Interpretation.{u}) (k : Nat) (rel : Term) (pairs : List (Term × Term))
    (rel' : Term) (owed : List Goal) : Prop where
  reached : rel'.PlainGround
  settled : ∀ goal ∈ owed, goal.Settled k
  related : ∀ v f g, (∀ goal ∈ owed, M.Holds v goal) → M.relation rel f g →
    M.relation rel' (M.applyAll v f (pairs.map Prod.fst)) (M.applyAll v g (pairs.map Prod.snd))

theorem transfers_nil (hrel : rel.PlainGround) : Transfers M k rel [] rel [] where
  reached := hrel
  settled := by simp
  related v f g _ h := by simpa using h

theorem Transfers.append (h : Transfers M k rel pairs rel' owed)
    (h' : Transfers M k rel' pairs' rel'' owed') :
    Transfers M k rel (pairs ++ pairs') rel'' (owed ++ owed') where
  reached := h'.reached
  settled := List.forall_mem_append.2 ⟨h.settled, h'.settled⟩
  related v f g howed hfg := by
    rw [List.forall_mem_append] at howed
    rw [List.map_append, List.map_append, Interpretation.applyAll_append,
      Interpretation.applyAll_append]
    exact h'.related v _ _ howed.2 (h.related v f g howed.1 hfg)

/-! ## Ground relations -/

section Ground

variable {x y : M.Carrier}

/-- In a ground relation there is nothing to be replaced. -/
theorem Term.PlainGround.subst_var (h : rel.PlainGround) : (rel.subst .var).ground = true := by
  rw [Term.subst_var]
  exact h.ground

theorem Term.PlainGround.relation_equality (hrel : rel.PlainGround) (hM : M.Models r)
    (h : rel.view = .equality) : M.relation rel x y ↔ x = y := by
  simpa only [Term.subst_var] using hM.relation_equality hrel.subst_var h (x := x) (y := y)

theorem Term.PlainGround.relation_top (hrel : rel.PlainGround) (hM : M.Models r)
    (h : rel.view = .top) : M.relation rel x y := by
  simpa only [Term.subst_var] using hM.relation_top hrel.subst_var h (x := x) (y := y)

theorem Term.PlainGround.relation_flip (hrel : rel.PlainGround) (hM : M.Models r)
    (h : rel.view = .flip inner) : M.relation rel x y ↔ M.relation inner y x := by
  simpa only [Term.subst_var] using hM.relation_flip hrel.subst_var h (x := x) (y := y)

end Ground

/-! ## Pairs of arguments -/

/-- One pair is taken through a relation that is no converse. -/
theorem Straight.transfers (hM : M.Models r) (h : Straight σ n rel a b m rel' edges owed)
    (hrel : rel.PlainGround) (ha : a.Settled k) (hb : b.Settled k) :
    m = n ∧ edges = [] ∧ Transfers M k rel [(a, b)] rel' owed := by
  cases h with
  | arrow h =>
    rename_i dom
    have hdom : dom.PlainGround := hrel.of_mem_parts (by simp [h, View.parts])
    have hcod : rel'.PlainGround := hrel.of_mem_parts (by simp [h, View.parts])
    refine ⟨rfl, rfl, hcod, by simpa using .related hdom ha hb, fun v f g howed hfg => ?_⟩
    have hab : M.relation dom (M.value v a) (M.value v b) := howed _ List.mem_cons_self
    have harrow := (hM.relation_arrow hrel.subst_var h (x := f) (y := g)).1
    simp only [Term.subst_var] at harrow
    simpa using harrow hfg _ _ hab
  | edge h => exact (hrel.plain.view_ne_dependent _ _ h).elim
  | newEdge h => exact (hrel.plain.view_ne_dependent _ _ h).elim
  | equality h =>
    refine ⟨rfl, rfl, hrel, by simpa using .related hrel ha hb, fun v f g howed hfg => ?_⟩
    have hab : M.relation rel (M.value v a) (M.value v b) := howed _ List.mem_cons_self
    rw [hrel.relation_equality hM h] at hab hfg ⊢
    simp [hab, hfg]
  | top h => exact ⟨rfl, rfl, hrel, by simp, fun v f g _ _ => hrel.relation_top hM h⟩

/-- One pair is taken through a relation. -/
theorem Passes.transfers (hM : M.Models r) (h : Passes σ n rel a b m rel' edges owed)
    (hrel : rel.PlainGround) (ha : a.Settled k) (hb : b.Settled k) :
    m = n ∧ edges = [] ∧ Transfers M k rel [(a, b)] rel' owed := by
  cases h with
  | straight h => exact h.transfers hM hrel ha hb
  | symmetric hview hinner h =>
    rename_i inner
    have hplain : inner.PlainGround := hrel.of_mem_parts (by simp [hview, View.parts])
    obtain ⟨hm, hedges, htransfers⟩ := h.transfers hM hplain ha hb
    refine ⟨hm, hedges, htransfers.reached, htransfers.settled, fun v f g howed hfg => ?_⟩
    refine htransfers.related v f g howed ?_
    -- what is related by the converse is related the other way round, which makes no difference
    rw [hrel.relation_flip hM hview] at hfg
    rcases hinner with hequality | htop
    · rw [hplain.relation_equality hM hequality] at hfg ⊢
      exact hfg.symm
    · exact hplain.relation_top hM htop
  | converse hview _ h =>
    rename_i inner rel' _
    have hplain : inner.PlainGround := hrel.of_mem_parts (by simp [hview, View.parts])
    obtain ⟨hm, hedges, htransfers⟩ := h.transfers hM hplain hb ha
    have hreached := htransfers.reached
    refine ⟨hm, hedges, ⟨?_, ?_⟩, htransfers.settled, fun v f g howed hfg => ?_⟩
    · simpa [Term.flip] using hreached.ground
    · simpa [Term.flip, Term.Plain, Term.PlainHead] using hreached.plain
    · rw [hrel.relation_flip hM hview] at hfg
      rw [hM.flip rel' hreached.ground]
      exact htransfers.related v g f howed hfg

/-- Pairs are taken through a relation from left to right. -/
theorem Eliminates.transfers (hM : M.Models r) (h : Eliminates σ n rel pairs m rel' edges owed)
    (hrel : rel.PlainGround) (hpairs : ∀ a b, (a, b) ∈ pairs → a.Settled k ∧ b.Settled k) :
    n ≤ m ∧ edges = [] ∧ Transfers M k rel pairs rel' owed := by
  induction h with
  | nil => exact ⟨le_rfl, rfl, transfers_nil hrel⟩
  | @cons n m m' l rel rel' rel'' a b rest edges edges' owed owed' h hm _ ih =>
    obtain ⟨ha, hb⟩ := hpairs a b List.mem_cons_self
    obtain ⟨rfl, rfl, hfirst⟩ := h.transfers hM hrel ha hb
    obtain ⟨hl, rfl, hrest⟩ := ih hfirst.reached fun a b hab =>
      hpairs a b (List.mem_cons_of_mem _ hab)
    exact ⟨hm.trans hl, rfl, hfirst.append hrest⟩

end Monotonicity
