import Monotonicity.Proofs.Semantics.Valuation
import Monotonicity.Proofs.Search.Ends
import Monotonicity.Search.Candidate

/-!
# Taking arguments through a relation is sound

If `rel f g` and the obligations on the arguments hold, then the relation that elimination arrives
at holds between `f` and `g` applied to these arguments. This is shown in every interpretation that
reads the reserved relations as they are meant, whatever else it does, and for all bindings from the
moment on at which the continuation is called. Placeholders may be left at that moment, in the
relation as in the arguments: they may stand for anything.

A relation in whose value no dependent arrow occurs needs no proof of an edge. So the prover is
never asked, and the continuation is called once at most (`HandsOn`). The invariant that carries
this through unification is that the terms met belong to a stable class, the one of terms whose
values at the start have no dependent arrow.
-/

namespace Monotonicity

universe u

/-! ## Terms without dependent arrows -/

namespace Term

/-- No dependent arrow occurs in the value of the term under an assignment. -/
def Independent (θ : Nat → Term) (t : Term) : Prop := Reserved.dependent ∉ (t.subst θ).symbols

variable {θ : Nat → Term} {t : Term}

theorem independent_app {head : String} {args : List Term} :
    (Term.app head args).Independent θ ↔
      Reserved.dependent ≠ head ∧ ∀ t ∈ args, t.Independent θ := by
  simp [Independent, symbols, symbolsAll_eq_flatMap]

theorem independent_arrow {dom cod : Term} (hdom : dom.Independent θ)
    (hcod : cod.Independent θ) : (arrow dom cod).Independent θ :=
  independent_app.2 ⟨by decide, by simp [hdom, hcod]⟩

theorem independent_flip {rel : Term} (hrel : rel.Independent θ) :
    rel.flip.Independent θ :=
  independent_app.2 ⟨by decide, by simp [hrel]⟩

theorem stable_independent : Stable (Independent θ) where
  args h := (independent_app.1 h).2
  scrutinee h hc := h (by simp [symbols, hc])
  bodies h arm harm hc := by
    refine h ?_
    simp only [subst_cases, symbols, List.mem_append, mem_symbolsArms, List.mem_map]
    exact .inr ⟨_, ⟨arm, harm, rfl⟩, .inr hc⟩
  subst h hf hc := by
    rw [subst_subst] at hc
    rcases mem_symbols_subst hc with hc | ⟨i, hi, hc⟩
    · exact h (mem_symbols_subst_of_mem hc)
    · exact hf i hi hc

end Term

namespace Subst

variable {σ τ : Subst} {t : Term}

/-- What is bound has the value of its placeholder. -/
theorem Acyclic.within_independent (hσ : σ.Acyclic) : σ.Within (Term.Independent σ.value) := by
  intro i t hi ht
  rw [Term.Independent, Term.subst_var_eq, hσ.value_of_bound ht, hσ.resolve_eq_subst] at hi
  exact hi

/-- No dependent arrow is seen where none occurs. -/
theorem Within.view_ne_dependent {θ : Nat → Term}
    (hτ : τ.Within (Term.Independent θ)) (hacyclic : τ.Acyclic)
    (ht : t.Independent θ) (edge family : Term) :
    τ.view t ≠ .dependent edge family := by
  intro hview
  have hcore := hacyclic.unflipFor_of_view (t := t)
    (c := (false, .app Reserved.dependent [edge, family])) (by rw [hview]; rfl)
  have hindependent := hτ.unflipFor Term.stable_independent τ false ht
  rw [hcore] at hindependent
  exact (Term.independent_app.1 hindependent).1 rfl

end Subst

/-! ## Proper interpretations -/

namespace Interpretation

/-- The reserved relations stand for what they are meant to, whatever they are applied to. -/
structure Proper (M : Interpretation.{u}) : Prop where
  equality : ∀ x y, M.relation .equality x y ↔ x = y
  top : ∀ x y, M.relation (.const Reserved.top) x y
  arrow : ∀ dom cod f g, M.relation (.arrow dom cod) f g ↔
    ∀ x y, M.relation dom x y → M.relation cod (M.apply f x) (M.apply g y)
  flip : ∀ rel x y, M.relation (.flip rel) x y ↔ M.relation rel y x

namespace Proper

variable {M : Interpretation.{u}} {σ τ : Subst} {t core a b : Term} {odd odd' : Bool}
  {x y : M.Carrier}

theorem directed_unflip (hM : M.Proper) (h : t.unflip odd = (odd', core)) :
    M.directed odd t x y ↔ M.directed odd' core x y :=
  Interpretation.directed_unflip (P := fun _ => True) (fun rel _ => ⟨trivial, hM.flip rel⟩)
    trivial h

/-- A relation stands for what was seen of it at an earlier stage. -/
theorem relation_of_view (hM : M.Proper) (hτ : τ.Acyclic) (hle : σ ≤ τ)
    (h : (σ.view t).core? = some (odd, core)) :
    M.relation (τ.resolve t) x y ↔ M.directed odd (τ.resolve core) x y := by
  have hθ := hτ.solves_value.of_le hτ.nodup hle
  obtain ⟨o, c, hc⟩ : ∃ o c, (core.subst τ.value).unflip odd = (o, c) := ⟨_, _, rfl⟩
  have ht : (t.subst τ.value).unflip false = (o, c) :=
    (hθ.unflip_of_view (hτ.of_le hle) h).trans hc
  rw [hτ.resolve_eq_subst, hτ.resolve_eq_subst]
  have hdirected : M.directed false (t.subst τ.value) x y ↔
      M.directed odd (core.subst τ.value) x y :=
    (hM.directed_unflip ht).trans (hM.directed_unflip hc).symm
  exact hdirected

theorem relation_equality (hM : M.Proper) (hτ : τ.Acyclic) (hle : σ ≤ τ)
    (h : σ.view t = .equality) : M.relation (τ.resolve t) x y ↔ x = y := by
  rw [hM.relation_of_view hτ hle (by rw [h]; rfl), ← hM.equality]
  simp [directed, Term.equality, hτ.resolve_app]

theorem relation_top (hM : M.Proper) (hτ : τ.Acyclic) (hle : σ ≤ τ) (h : σ.view t = .top) :
    M.relation (τ.resolve t) x y := by
  rw [hM.relation_of_view hτ hle (by rw [h]; rfl)]
  simpa [directed, hτ.resolve_app] using hM.top x y

theorem relation_flip (hM : M.Proper) (hτ : τ.Acyclic) (hle : σ ≤ τ) (h : σ.view t = .flip a) :
    M.relation (τ.resolve t) x y ↔ M.relation (τ.resolve a) y x :=
  hM.relation_of_view hτ hle (by rw [h]; rfl)

theorem relation_arrow (hM : M.Proper) (hτ : τ.Acyclic) (hle : σ ≤ τ)
    (h : σ.view t = .arrow a b) :
    M.relation (τ.resolve t) x y ↔ ∀ u v, M.relation (τ.resolve a) u v →
      M.relation (τ.resolve b) (M.apply x u) (M.apply y v) := by
  rw [hM.relation_of_view hτ hle (by rw [h]; rfl), ← hM.arrow]
  simp [directed, Term.arrow, hτ.resolve_app]

end Proper

end Interpretation

/-! ## Handing over at most once -/

namespace Search

variable {α β : Type} {s : State} {P : α → State → Prop}

/-- Whatever the continuation, it is called at most once: with a value and in a state with a
property, after which the search is the continuation's, or else not at all. -/
inductive HandsOn (m : (ρ : Type) → (α → Search ρ) → Search ρ) (s : State)
    (P : α → State → Prop) : Prop
  | handed {a : α} {t : State} (h : ∀ ρ k, (m ρ k).run s = (k a).run t) (ha : P a t)
  | failed {why : Failure} {t : State} (h : ∀ ρ k, (m ρ k).run s = .failure why t)
  | overflowed {l : Ledger} (h : ∀ ρ k, (m ρ k).run s = .overflow l)

namespace HandsOn

theorem hand {a : α} (h : P a s) : HandsOn (fun _ k => k a) s P := .handed (fun _ _ => rfl) h

theorem gap {goal : Goal} : HandsOn (fun _ _ => Search.gap goal) s P := .failed fun _ _ => rfl

theorem mono {m : (ρ : Type) → (α → Search ρ) → Search ρ} {R : α → State → Prop}
    (h : HandsOn m s P) (hP : ∀ a t, P a t → R a t) : HandsOn m s R := by
  cases h with
  | handed h ha => exact .handed h (hP _ _ ha)
  | failed h => exact .failed h
  | overflowed h => exact .overflowed h

/-- A search whose runs are those of another one that starts elsewhere. -/
theorem of_run_eq {m n : (ρ : Type) → (α → Search ρ) → Search ρ} {t : State}
    (h : ∀ ρ k, (m ρ k).run s = (n ρ k).run t) (hn : HandsOn n t P) : HandsOn m s P := by
  cases hn with
  | handed h' ha => exact .handed (fun ρ k => (h ρ k).trans (h' ρ k)) ha
  | failed h' => exact .failed fun ρ k => (h ρ k).trans (h' ρ k)
  | overflowed h' => exact .overflowed fun ρ k => (h ρ k).trans (h' ρ k)

/-- One search after the other: what the first hands over, the second goes on with. -/
theorem andThen {m : (ρ : Type) → (α → Search ρ) → Search ρ}
    {n : α → (ρ : Type) → (β → Search ρ) → Search ρ} {R : β → State → Prop} (h : HandsOn m s P)
    (hn : ∀ a t, P a t → HandsOn (n a) t R) : HandsOn (fun ρ k => m ρ fun a => n a ρ k) s R := by
  cases h with
  | failed h => exact .failed fun ρ k => h ρ _
  | overflowed h => exact .overflowed fun ρ k => h ρ _
  | handed h ha => exact of_run_eq (fun ρ k => h ρ _) (hn _ _ ha)

theorem subst {m : Subst → (ρ : Type) → (α → Search ρ) → Search ρ} (h : HandsOn (m s.subst) s P) :
    HandsOn (fun ρ k => Search.subst >>= fun σ => m σ ρ k) s P :=
  of_run_eq (n := m s.subst) (fun _ _ => rfl) h

end HandsOn

/-- A search that returns a value, and then one that hands values on. -/
theorem Gets.handsOn {m : Search β} {n : β → (ρ : Type) → (α → Search ρ) → Search ρ}
    {Q : β → State → Prop} (h : m.Gets s Q)
    (hn : ∀ b t, s.Grown t → Q b t → HandsOn (n b) t P) :
    HandsOn (fun ρ k => m >>= fun b => n b ρ k) s P := by
  unfold Gets Ends at h
  cases hrun : m.run s with
  | failure why t =>
    have hnext (ρ : Type) (k : α → Search ρ) :
        (m >>= fun b => n b ρ k).run s = .failure why t := by simp only [run_bind, hrun]
    exact .failed hnext
  | overflow l =>
    have hnext (ρ : Type) (k : α → Search ρ) :
        (m >>= fun b => n b ρ k).run s = .overflow l := by simp only [run_bind, hrun]
    exact .overflowed hnext
  | success b t =>
    have hnext (ρ : Type) (k : α → Search ρ) :
        (m >>= fun b => n b ρ k).run s = (n b ρ k).run t := by simp only [run_bind, hrun]
    rw [hrun] at h
    exact .of_run_eq hnext (hn b t h.1 h.2)

/-- One way to go on if two terms can be unified, and a failure if not. -/
theorem HandsOn.unify {a b : Term} {goal : Goal} {m : (ρ : Type) → (α → Search ρ) → Search ρ}
    (h : ∀ t, s.Grown t → s.subst.unify a b = some t.subst → HandsOn m t P) :
    HandsOn (fun ρ k => Search.unify a b >>= fun ok =>
      if ok = true then m ρ k else Search.gap goal) s P := by
  refine unify_gets.handsOn fun ok t ht hok => ?_
  cases ok with
  | true => exact h t ht (hok rfl)
  | false => exact .gap

/-! ## Elimination -/

/-- No dependent arrow is in sight: not in a relation, not through the bindings of its placeholders,
and not in what new placeholders may be bound to already. -/
structure Clear (θ : Nat → Term) (s : State) (rel : Term) : Prop where
  acyclic : s.subst.Acyclic
  within : s.subst.Within (Term.Independent θ)
  rel : rel.Independent θ
  unused : ∀ i, s.ledger.nextVar ≤ i → (Term.var i).Independent θ

/-- From one state to another, pairs of arguments were taken through a relation, and no proof was
needed. If the obligations that were added hold, then what was related goes, applied to the
arguments, to what is related by the relation reached; and this is so in every proper interpretation
and for all later bindings. -/
structure Carried (θ : Nat → Term) (s : State) (e : Elimination) (pairs : List (Term × Term))
    (e' : Elimination) (t : State) : Prop where
  grown : s.Grown t
  clear : Clear θ t e'.rel
  premises : e'.premises = e.premises
  sound : ∃ owed, e'.subgoals = e.subgoals ++ owed ∧
    ∀ M : Interpretation.{u}, M.Proper → ∀ τ : Subst, τ.Acyclic → t.subst ≤ τ → ∀ f g,
      (∀ goal ∈ owed, M.Holds M.symbol (goal.resolve τ)) → M.relation (τ.resolve e.rel) f g →
      M.relation (τ.resolve e'.rel) (M.applyAll M.symbol f (pairs.map fun p => τ.resolve p.1))
        (M.applyAll M.symbol g (pairs.map fun p => τ.resolve p.2))

section Eliminate

variable {θ : Nat → Term} {prove : Prover} {goal : Goal} {e e₁ e₂ : Elimination}
  {a b rel part : Term} {t u : State} {pairs more : List (Term × Term)}

theorem Clear.with_rel (h : Clear θ s rel) (hpart : part.Independent θ) : Clear θ s part :=
  { h with rel := hpart }

/-- The parts that are seen of a relation. -/
theorem Clear.of_mem_parts (h : Clear θ s rel) (hpart : part ∈ (s.subst.view rel).parts) :
    Clear θ s part :=
  h.with_rel (h.within.of_mem_parts Term.stable_independent h.rel hpart)

/-- What unification with a term without dependent arrows makes of the state. -/
theorem Clear.unify {term : Term} (h : Clear θ s rel) (hterm : term.Independent θ) (hs : s.Grown t)
    (hu : s.subst.unify rel term = some t.subst) : Clear θ t rel where
  acyclic := hs.acyclic h.acyclic
  within := (h.within.unify Term.stable_independent h.rel hterm hu).within
  rel := h.rel
  unused i hi := h.unused i (hs.ledger.nextVar.trans hi)

theorem Clear.of_kept (h : Clear θ s rel) (hs : s.Kept t) : Clear θ t rel where
  acyclic := hs.grown.acyclic h.acyclic
  within := by
    rw [hs.subst]
    exact h.within
  rel := h.rel
  unused i hi := h.unused i (hs.ledger.nextVar.trans hi)

namespace Carried

theorem refl (h : Clear θ s e.rel) : Carried.{u} θ s e [] e s :=
  ⟨.refl s, h, rfl, [], by simp, fun M _ τ _ _ f g _ hfg => by simpa using hfg⟩

theorem trans (h : Carried.{u} θ s e pairs e₁ t) (h' : Carried.{u} θ t e₁ more e₂ u) :
    Carried.{u} θ s e (pairs ++ more) e₂ u := by
  obtain ⟨owed, howed, hsound⟩ := h.sound
  obtain ⟨owed', howed', hsound'⟩ := h'.sound
  refine ⟨h.grown.trans h'.grown, h'.clear, h'.premises.trans h.premises, owed ++ owed',
    by rw [howed', howed, List.append_assoc], fun M hM τ hτ hle f g hgoals hfg => ?_⟩
  rw [List.forall_mem_append] at hgoals
  rw [List.map_append, List.map_append, Interpretation.applyAll_append,
    Interpretation.applyAll_append]
  refine hsound' M hM τ hτ hle _ _ hgoals.2 ?_
  exact hsound M hM τ hτ (Subst.le_trans h'.grown.subst hle) f g hgoals.1 hfg

/-- It is enough to start from a relation that relates at least as much. -/
theorem of_includes (h : Carried.{u} θ s { e with rel := rel } pairs e₁ t)
    (hrel : ∀ M : Interpretation.{u}, M.Proper → ∀ τ : Subst, τ.Acyclic → s.subst ≤ τ →
      M.Includes (τ.resolve e.rel) (τ.resolve rel)) : Carried.{u} θ s e pairs e₁ t := by
  obtain ⟨owed, howed, hsound⟩ := h.sound
  refine ⟨h.grown, h.clear, h.premises, owed, howed, fun M hM τ hτ hle f g hgoals hfg => ?_⟩
  have hs := Subst.le_trans h.grown.subst hle
  exact hsound M hM τ hτ hle f g hgoals (hrel M hM τ hτ hs f g hfg)

/-- What takes the swapped pair through a relation takes the pair through its converse. -/
theorem converse (h : Carried.{u} θ s { e with rel := rel } [(b, a)] e₁ t)
    (hview : s.subst.view e.rel = .flip rel) :
    Carried.{u} θ s e [(a, b)] { e₁ with rel := e₁.rel.flip } t := by
  obtain ⟨owed, howed, hsound⟩ := h.sound
  refine ⟨h.grown, h.clear.with_rel (Term.independent_flip h.clear.rel), h.premises, owed, howed,
    fun M hM τ hτ hle f g hgoals hfg => ?_⟩
  have hs := Subst.le_trans h.grown.subst hle
  rw [hM.relation_flip hτ hs hview] at hfg
  rw [Term.flip, hτ.resolve_app]
  exact (hM.flip _ _ _).2 (hsound M hM τ hτ hle g f hgoals hfg)

end Carried

/-- One pair is taken through a relation that is no converse. -/
theorem eliminateStraight_handsOn (h : Clear θ s e.rel) :
    HandsOn (fun _ k => eliminateStraight prove goal e a b k) s
      (Carried.{u} θ s e [(a, b)]) := by
  unfold eliminateStraight
  refine .subst ?_
  cases hview : s.subst.view e.rel with
  | arrow dom cod =>
    have hcod : Clear θ s cod := h.of_mem_parts (by simp [hview, View.parts])
    refine .hand ⟨.refl s, hcod, rfl, [.related dom a b], rfl, ?_⟩
    intro M hM τ hτ hle f g howed hfg
    have hab := howed _ List.mem_cons_self
    simpa [Elimination.owing] using (hM.relation_arrow hτ hle hview).1 hfg _ _ hab
  | dependent edge family =>
    exact (h.within.view_ne_dependent h.acyclic h.rel edge family hview).elim
  | equality =>
    refine .hand ⟨.refl s, h, rfl, [.related e.rel a b], rfl, ?_⟩
    intro M hM τ hτ hle f g howed hfg
    have hab := (hM.relation_equality hτ hle hview).1 (howed _ List.mem_cons_self)
    rw [hM.relation_equality hτ hle hview] at hfg
    simp [Elimination.owing, hM.relation_equality hτ hle hview, hab, hfg]
  | top =>
    refine .hand ⟨.refl s, h, rfl, [], by simp, ?_⟩
    intro M hM τ hτ hle f g _ _
    exact hM.relation_top hτ hle hview
  | placeholder i =>
    refine freshVar_gets.handsOn fun dom t₁ _ h₁ => freshVar_gets.handsOn fun cod t₂ _ h₂ => ?_
    refine .unify fun t₃ h₃ hu => .hand ?_
    obtain ⟨hk₁, -, rfl⟩ := h₁
    obtain ⟨hk₂, -, rfl⟩ := h₂
    have hk := hk₁.trans hk₂
    have hcod := h.unused _ hk₁.ledger.nextVar
    have harrow := Term.independent_arrow (h.unused _ le_rfl) hcod
    have hclear := ((h.of_kept hk).unify harrow h₃ hu).with_rel hcod
    refine ⟨hk.grown.trans h₃, hclear, rfl, [.related _ a b], rfl, ?_⟩
    intro M hM τ hτ hle f g howed hfg
    -- the placeholder is an arrow from now on
    rw [(Subst.unify_gains hu).resolve_eq hτ hle, Term.arrow, hτ.resolve_app] at hfg
    have happly := (hM.arrow _ _ f g).1 hfg _ _ (howed _ List.mem_cons_self)
    simpa [Elimination.owing] using happly
  | bottom => exact .gap
  | flip rel => exact .gap
  | named head args => exact .gap
  | stuck => exact .gap

/-- One pair is taken through a relation. -/
theorem eliminate_handsOn (h : Clear θ s e.rel) :
    HandsOn (fun _ k => eliminate prove goal e a b k) s (Carried.{u} θ s e [(a, b)]) := by
  unfold eliminate
  refine .subst ?_
  cases hview : s.subst.view e.rel with
  | flip inner =>
    have hinner : Clear θ s inner := h.of_mem_parts (by simp [hview, View.parts])
    -- a relation that is its own converse takes the pair as it is, any other the swapped pair
    have hswap : HandsOn (fun _ k => eliminateStraight prove goal { e with rel := inner } b a
        fun e => k { e with rel := e.rel.flip }) s (Carried.{u} θ s e [(a, b)]) :=
      (eliminateStraight_handsOn hinner).andThen fun e₁ t h₁ => .hand (h₁.converse (e := e) hview)
    dsimp only
    cases hseen : s.subst.view inner with
    | equality =>
      refine (eliminateStraight_handsOn hinner).mono fun e₁ t h₁ =>
        h₁.of_includes (e := e) fun M hM τ hτ hle f g hfg => ?_
      rw [hM.relation_flip hτ hle hview, hM.relation_equality hτ hle hseen] at hfg
      rw [hM.relation_equality hτ hle hseen, hfg]
    | top =>
      exact (eliminateStraight_handsOn hinner).mono fun e₁ t h₁ =>
        h₁.of_includes (e := e) fun M hM τ hτ hle f g _ => hM.relation_top hτ hle hseen
    | arrow dom cod => exact hswap
    | dependent edge family => exact hswap
    | placeholder i => exact hswap
    | bottom => exact .gap
    | flip rel => exact .gap
    | named head args => exact .gap
    | stuck => exact .gap
  | _ => exact eliminateStraight_handsOn h

/-- Pairs are taken through a relation from left to right. -/
theorem eliminateAll_handsOn (h : Clear θ s e.rel) :
    HandsOn (fun _ k => eliminateAll prove goal k pairs e) s (Carried.{u} θ s e pairs) := by
  induction pairs generalizing s e with
  | nil => exact .hand (.refl h)
  | cons pair rest ih =>
    refine (eliminate_handsOn h).andThen fun e₁ t h₁ => ?_
    exact (ih h₁.clear).mono fun e₂ u h₂ => h₁.trans h₂

end Eliminate

/-- `eliminate_all` is sound, for every relation in which no dependent arrow is seen: if `f` and `g`
are related by it and the obligations that were added hold, then `f` and `g` applied to the
arguments are related by the relation that is handed to the continuation. This is so under the
bindings of that moment and all later ones, in every interpretation that reads equality, the full
relation, arrows and converses as they are meant. -/
theorem eliminateAll_sound {s : State} (hs : s.subst.Acyclic)
    (hunused : ∀ i, s.ledger.nextVar ≤ i → s.subst.get? i = none) (prove : Prover) (goal : Goal)
    (e : Elimination) (hrel : Reserved.dependent ∉ (s.subst.resolve e.rel).symbols)
    (pairs : List (Term × Term)) :
    HandsOn (fun _ k => eliminateAll prove goal k pairs e) s fun e' t =>
      s.subst ≤ t.subst ∧ t.subst.Acyclic ∧ e'.premises = e.premises ∧
      ∃ owed, e'.subgoals = e.subgoals ++ owed ∧
        ∀ M : Interpretation.{u}, M.Proper → ∀ τ : Subst, τ.Acyclic → t.subst ≤ τ → ∀ f g,
          (∀ goal ∈ owed, M.Holds M.symbol (goal.resolve τ)) → M.relation (τ.resolve e.rel) f g →
          M.relation (τ.resolve e'.rel)
            (M.applyAll M.symbol f (pairs.map fun p => τ.resolve p.1))
            (M.applyAll M.symbol g (pairs.map fun p => τ.resolve p.2)) := by
  have hclear : Clear s.subst.value s e.rel :=
    { acyclic := hs
      within := hs.within_independent
      rel := by
        rw [hs.resolve_eq_subst] at hrel
        exact hrel
      unused := fun i hi => by
        rw [Term.Independent, Term.subst_var_eq, Subst.value_of_unbound (hunused i hi)]
        simp [Term.symbols] }
  refine (eliminateAll_handsOn hclear).mono fun e' t h => ?_
  exact ⟨h.grown.subst, h.clear.acyclic, h.premises, h.sound⟩

end Search

/-- Numbers read the reserved relations as they are meant. -/
theorem Interpretation.numbers_proper : numbers.Proper where
  equality x y := by simp [numbers, numberRelation, Term.equality, Reserved.equality, Reserved.top,
    Reserved.bottom]
  top x y := by simp [numbers, numberRelation]
  arrow dom cod f g := by simp [numbers, Term.arrow, numberRelation]
  flip rel x y := by simp [numbers, Term.flip, numberRelation]

namespace Search

/-- Two pairs go through the converse of an arrow to a placeholder. The first is swapped and leaves
the converse of the placeholder, which becomes an arrow for the second. -/
theorem eliminateAll_behind_converse :
    let le := Term.const "le"
    let lt := Term.const "lt"
    let pairs : List (Term × Term) := [(.const "a", .const "b"), (.const "c", .const "d")]
    let s : State :=
      { subst := Subst.empty.bind 1 (.flip (.arrow le (.var 0)))
        ledger := { nextVar := 2, symbols := {} } }
    ∃ (e : Elimination) (t : State),
      (eliminateAll (fun _ goal _ => gap goal) (.subrel lt le) pure pairs
        { rel := .var 1, premises := [] }).run s = .success e t ∧
      e.rel = .flip (.var 3) ∧
      e.subgoals = [.related le (.const "b") (.const "a"),
        .related (.var 2) (.const "d") (.const "c")] ∧
      ∀ f g : Nat, Interpretation.numbers.relation (.flip (.arrow le (.arrow le lt))) f g →
        g < f := by
  intro le lt pairs s
  have hs : s.subst.Acyclic :=
    Subst.acyclic_empty.bind_of_occurs (by decide +kernel) (by decide +kernel)
  have hunused (i : Nat) (hi : s.ledger.nextVar ≤ i) : s.subst.get? i = none := by
    have hne : i ≠ 1 := by
      rintro rfl
      exact absurd hi (by decide)
    rw [Subst.get?_bind_of_ne _ hne, Subst.get?_empty]
  have hsound := eliminateAll_sound.{0} hs hunused (fun _ goal _ => gap goal) (.subrel lt le)
    { rel := .var 1, premises := [] } (by decide +kernel) pairs
  -- what a continuation that takes everything is handed
  obtain ⟨e, t, hrun, hrel, hgoals, htrail⟩ : ∃ (e : Elimination) (t : State),
      (eliminateAll (fun _ goal _ => gap goal) (.subrel lt le) pure pairs
        { rel := .var 1, premises := [] }).run s = .success e t ∧ e.rel = .flip (.var 3) ∧
      e.subgoals = [.related le (.const "b") (.const "a"),
        .related (.var 2) (.const "d") (.const "c")] ∧
      t.subst.trail = [(0, .arrow (.var 2) (.var 3)), (1, .flip (.arrow le (.var 0)))] :=
    ⟨_, _, rfl, rfl, rfl, rfl⟩
  cases hsound with
  | failed h =>
    rw [h] at hrun
    cases hrun
  | overflowed h =>
    rw [h] at hrun
    cases hrun
  | handed h ha =>
    rw [h, run_pure] at hrun
    cases hrun
    refine ⟨e, t, h _ pure, hrel, hgoals, fun f g hfg => ?_⟩
    obtain ⟨-, hacyclic, -, owed, howed, hsound⟩ := ha
    obtain rfl : e.subgoals = owed := howed
    let σ : Subst := s.subst.bind 0 (.arrow (.var 2) (.var 3))
    have hσ : t.subst = σ := Subst.trail_injective htrail
    rw [hσ] at hacyclic hsound
    let τ : Subst := (σ.bind 2 le).bind 3 lt
    have hτ : τ.Acyclic :=
      (hacyclic.bind_of_occurs (by decide +kernel) (by decide +kernel)).bind_of_occurs
        (by decide +kernel) (by decide +kernel)
    have hfg' : Interpretation.numbers.relation (τ.resolve (.var 1)) f g := by
      have hvalue : τ.resolve (.var 1) = .flip (.arrow le (.arrow le lt)) := by decide +kernel
      rwa [hvalue]
    have howed : ∀ goal ∈ e.subgoals,
        Interpretation.numbers.Holds Interpretation.numbers.symbol (goal.resolve τ) := by
      have hresolved : e.subgoals.map (·.resolve τ) = [.related le (.const "b") (.const "a"),
          .related le (.const "d") (.const "c")] := by
        rw [hgoals]
        decide +kernel
      have hall : ∀ goal ∈ e.subgoals.map (·.resolve τ),
          Interpretation.numbers.Holds Interpretation.numbers.symbol goal := by
        rw [hresolved]
        simp [Interpretation.Holds, Interpretation.numbers, Interpretation.numberRelation, le,
          Reserved.equality, Reserved.top, Reserved.bottom]
      exact fun goal hgoal => hall _ (List.mem_map_of_mem hgoal)
    have hresult := hsound _ Interpretation.numbers_proper τ hτ
      (Subst.le_trans (Subst.le_bind ..) (Subst.le_bind ..)) f g howed hfg'
    have hvalue : τ.resolve e.rel = .flip lt := by
      rw [hrel]
      decide +kernel
    have hleft : (pairs.map fun p => τ.resolve p.1) = [.const "a", .const "c"] := by decide +kernel
    have hright : (pairs.map fun p => τ.resolve p.2) = [.const "b", .const "d"] := by decide +kernel
    rw [hvalue, hleft, hright, Interpretation.numbers_proper.flip] at hresult
    simpa [Interpretation.numbers, Interpretation.numberRelation, lt, Reserved.equality,
      Reserved.top, Reserved.bottom] using hresult

end Search

end Monotonicity
