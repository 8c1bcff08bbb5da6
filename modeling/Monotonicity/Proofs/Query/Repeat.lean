import Monotonicity.Proofs.Query.Fuel
import Monotonicity.Proofs.Renaming.Count

/-!
# Solving again

The count of minted names goes on from query to query, and never goes back. An answer depends on it
only in the numbers of the names that it mentions: from another count, and so also after any number
of other queries, the answer to a goal is the same but for these.

This needs that none of the names which the engine was told, in terms or as the head of a
declaration, could be one that is minted.
-/

namespace Monotonicity

/-! ## Names in a registry -/

/-- The heads under which facts are filed. -/
def Shelf.heads (s : Shelf) : List String :=
  s.byShape.entries.map (·.1.1) ++ s.byHead.entries.map (·.1)

/-- The names that a registry holds, except in what terms evaluate to. -/
def Registry.names (r : Registry) : List String :=
  (r.facts.toList.flatMap fun f =>
    f.rel.symbols ++ f.left.symbols ++ f.right.symbols ++ f.witness.symbols) ++
  (r.inclusions.toList.flatMap fun f => f.lesser.symbols ++ f.greater.symbols) ++
  ([r.pairs.left, r.pairs.right, r.selves.left, r.selves.right].flatMap Shelf.heads) ++
  (r.parameters.entries.map (·.1)) ++ (r.variances.entries.map (·.1)) ++
  r.schemes.entries.flatMap fun entry => entry.1 :: entry.2.cases.flatMap fun pair =>
    pair.left :: pair.right :: pair.fields.flatMap FieldRel.symbols

namespace Symbols

variable {n m : Nat} {name : String}

theorem isMarked_recount : isMarked (recount n m name) = isMarked name := by
  cases h : origin? name with
  | none => simp [recount, h]
  | some o =>
    have hname := isMarked_minting o.1 o.2
    rw [← eq_minting_of_origin? h] at hname
    simp only [recount, h]
    split
    · rw [isMarked_minting, hname]
    · rfl

end Symbols

/-- What is the same for all marked names does not change when they are counted anew. -/
theorem Renaming.apply_recount {β : Type} {f : String → β} {b : β} {n m : Nat}
    (h : ∀ c, Symbols.isMarked c = true → f c = b) (c : String) :
    f ((recount n m).name c) = f c := by
  change f (Symbols.recount n m c) = f c
  cases hc : Symbols.isMarked c with
  | false => rw [Symbols.recount_of_unmarked hc]
  | true => rw [h c hc, h _ (Symbols.isMarked_recount.trans hc)]

/-- A table without marked keys has nothing under a marked one. -/
theorem Table.get?_of_isMarked {ν : Type} {t : Table String ν}
    (h : ∀ c ∈ t.entries.map (·.1), Symbols.isMarked c = false) (c : String)
    (hc : Symbols.isMarked c = true) : t.get? c = none := by
  cases hget : t.get? c with
  | none => rfl
  | some value =>
    have hmem := h c (List.mem_map.2 ⟨_, Table.mem_of_get? hget, rfl⟩)
    rw [hc] at hmem
    cases hmem

/-- The patterns of a library name unmarked heads only. -/
theorem Theory.Library.pattern_unmarked {T : Theory} (h : T.Library) {rule : Rule}
    (hrule : rule ∈ T.rules) {head : String} (hpattern : rule.pattern = .related (.named head)) :
    Symbols.isMarked head = false := by
  rcases h rule hrule with hstandard | ⟨r, rfl⟩
  · simp only [Rule.standard, List.mem_cons, List.not_mem_nil, or_false] at hstandard
    rcases hstandard with rfl | rfl | rfl | rfl | rfl | rfl | rfl | rfl | rfl | rfl | rfl | rfl |
      rfl | rfl | rfl | rfl | rfl | rfl <;> simp at hpattern
  · simp only [Relator.rule, Pattern.related.injEq, Shape.named.injEq] at hpattern
    subst hpattern
    cases r <;> decide

/-- A shelf without marked heads has nothing under a marked one. -/
theorem Shelf.empty_of_isMarked {s : Shelf} (h : ∀ c ∈ s.heads, Symbols.isMarked c = false)
    (c : String) (hc : Symbols.isMarked c = true) :
    s.byHead.get? c = none ∧ ∀ arity, s.byShape.get? (c, arity) = none := by
  rw [Shelf.heads, List.forall_mem_append] at h
  refine ⟨Table.get?_of_isMarked h.2 c hc, fun arity => ?_⟩
  cases hget : s.byShape.get? (c, arity) with
  | none => rfl
  | some ids =>
    have hmem := h.1 c (List.mem_map.2 ⟨_, Table.mem_of_get? hget, rfl⟩)
    rw [hc] at hmem
    cases hmem

/-- A library that holds no marked name does not see from where names are counted. -/
theorem Theory.untouched_recount {T : Theory} (hT : T.Library)
    (h : ∀ c ∈ T.registry.names, Symbols.isMarked c = false) (n : Nat) :
    T.Untouched (.recount 0 n) := by
  have hkeeps {c : String} (hc : Symbols.isMarked c = false) : (Renaming.recount 0 n).name c = c :=
    Symbols.recount_of_unmarked hc
  simp only [Registry.names, List.forall_mem_append, List.forall_mem_flatMap] at h
  obtain ⟨⟨⟨⟨⟨hfacts, hinclusions⟩, hshelves⟩, hparameters⟩, hvariances⟩, hschemes⟩ := h
  have hpairs (side : Side) := Shelf.empty_of_isMarked (s := T.registry.pairs.shelf side)
    (by cases side <;> exact hshelves _ (by simp [Index.shelf, Side.pick]))
  have hselves (side : Side) := Shelf.empty_of_isMarked (s := T.registry.selves.shelf side)
    (by cases side <;> exact hshelves _ (by simp [Index.shelf, Side.pick]))
  exact
    { proper := Renaming.proper_recount n
      facts := fun f hf => by
        obtain ⟨⟨⟨hrel, hleft⟩, hright⟩, hwitness⟩ := hfacts f (Array.mem_toList_iff.2 hf)
        exact ⟨fun c hc => hkeeps (hrel c hc), fun c hc => hkeeps (hleft c hc),
          fun c hc => hkeeps (hright c hc), fun c hc => hkeeps (hwitness c hc)⟩
      inclusions := fun f hf => by
        obtain ⟨hlesser, hgreater⟩ := hinclusions f (Array.mem_toList_iff.2 hf)
        exact ⟨fun c hc => hkeeps (hlesser c hc), fun c hc => hkeeps (hgreater c hc)⟩
      byShape := fun side head arity => by
        refine Renaming.apply_recount (f := fun c => T.registry.byShape side c arity) (b := [])
          (fun c hc => ?_) head
        simp [Registry.byShape, (hpairs side c hc).2, (hselves side c hc).2]
      byHead := fun side head => by
        refine Renaming.apply_recount (f := fun c => T.registry.byHead side c) (b := [])
          (fun c hc => ?_) head
        simp [Registry.byHead, (hpairs side c hc).1, (hselves side c hc).1]
      parameters := Renaming.apply_recount (Table.get?_of_isMarked hparameters)
      variances := Renaming.apply_recount (Table.get?_of_isMarked hvariances)
      schemes := by
        refine Renaming.apply_recount (Table.get?_of_isMarked fun c hc => ?_)
        obtain ⟨entry, hentry, rfl⟩ := List.mem_map.1 hc
        exact hschemes entry hentry _ List.mem_cons_self
      cases := fun head scheme hscheme pair hpair => by
        have hnames := (List.forall_mem_cons.1 (hschemes _ (Table.mem_of_get? hscheme))).2
        simp only [List.forall_mem_flatMap, List.forall_mem_cons] at hnames
        obtain ⟨hleft, hright, hfields⟩ := hnames pair hpair
        refine ⟨hkeeps hleft, hkeeps hright, fun rel hrel => ?_⟩
        exact Term.smul_eq_self (fun c hc => hkeeps (hfields _ hrel c hc)) (.inl rfl)
      patterns := fun rule hrule head hpattern => hkeeps (hT.pattern_unmarked hrule hpattern) }

namespace Engine

variable {E E' : Engine} {goal : Goal}

/-- The engine with another count of minted names. -/
def counting (E : Engine) (n : Nat) : Engine :=
  { E with symbols := { E.symbols with minted := n } }

/-- The engine after goals were solved. -/
def after (E : Engine) (goals : List Goal) : Engine :=
  goals.foldl (fun E goal => (E.solve goal).2) E

theorem theory_solve (E : Engine) (goal : Goal) : (E.solve goal).2.theory = E.theory :=
  theory_query ..

theorem theory_after (E : Engine) (goals : List Goal) : (E.after goals).theory = E.theory := by
  induction goals generalizing E with
  | nil => rfl
  | cons goal goals ih => exact (ih _).trans (theory_solve E goal)

/-- The answers of engines with one theory differ in the numbers of the minted names only. -/
theorem solve_recount (hE : E.theory.Library)
    (hnames : ∀ c ∈ E.theory.registry.names, Symbols.isMarked c = false)
    (hgoal : ∀ t ∈ goal.terms, ∀ c ∈ t.symbols, Symbols.isMarked c = false)
    (hsame : E'.theory = E.theory) :
    (E'.solve goal).1 =
      Renaming.recount E.symbols.minted E'.symbols.minted • (E.solve goal).1 := by
  -- both answers are those of an engine that has minted nothing, counted anew
  have hbase {F : Engine} (hF : F.theory = E.theory) :
      (F.solve goal).1 = Renaming.recount 0 F.symbols.minted • ((E.counting 0).solve goal).1 := by
    have hmirror : Mirror (.recount 0 F.symbols.minted) (E.counting 0) F :=
      ⟨hF, fun hint i hhint => Symbols.recount_minting hhint 0 _ i⟩
    have hkept (t : Term) (ht : t ∈ goal.terms) : Renaming.recount 0 F.symbols.minted • t = t :=
      Term.smul_eq_self (fun c hc => Symbols.recount_of_unmarked (hgoal t ht c hc)) (.inl rfl)
    have h : (F.solve (Renaming.recount 0 F.symbols.minted • goal)).1 = _ :=
      solve_smul hmirror (Theory.untouched_recount hE hnames F.symbols.minted) hE (.inl rfl)
    rwa [goal.smul_eq_self hkept] at h
  rw [hbase hsame, hbase rfl, ← Answer.mul_smul, Renaming.recount_mul]

/-- The answer of `solve` to a goal is the same for any two counts of the minted names, but for the
numbers of these names in it: the outcome, the statistics, and, counted anew, the goal, the
bindings, the proof, the failure and what was put off. In particular other goals that were solved
before do not change it. -/
theorem solve_repeatable (hE : E.theory.Library)
    (hnames : ∀ c ∈ E.theory.registry.names, Symbols.isMarked c = false)
    (hgoal : ∀ t ∈ goal.terms, ∀ c ∈ t.symbols, Symbols.isMarked c = false) :
    (∀ n m, ((E.counting m).solve goal).1 =
      Renaming.recount n m • ((E.counting n).solve goal).1) ∧
    ∀ earlier : List Goal, ((E.after earlier).solve goal).1 =
      Renaming.recount E.symbols.minted (E.after earlier).symbols.minted • (E.solve goal).1 :=
  ⟨fun n _ => solve_recount (E := E.counting n) hE hnames hgoal rfl,
    fun earlier => solve_recount hE hnames hgoal (E.theory_after earlier)⟩

/-- That `f` takes related arguments to related results is proved with a hypothesis whose name was
minted. From another count it is the same proof with another such name. -/
theorem withMonotone_repeats :
    ∃ sol, ((withMonotone.counting 3).solve (.related (.arrow (.const "le") (.const "le"))
        (.const "f") (.const "f"))).1.result = .ok sol ∧
      sol.proof?.any (·.text = "arrow_intro[mono_left[fact(0,f_mono) mono_left[hyp(h#5)]]]") = true ∧
      ((withMonotone.counting 10).solve (.related (.arrow (.const "le") (.const "le"))
        (.const "f") (.const "f"))).1.result = .ok (Renaming.recount 3 10 • sol) := by
  have hsolved : ((withMonotone.counting 3).solve (.related (.arrow (.const "le") (.const "le"))
      (.const "f") (.const "f"))).1.result.toOption.any (fun sol =>
        sol.proof?.any (·.text = "arrow_intro[mono_left[fact(0,f_mono) mono_left[hyp(h#5)]]]")) =
      true := by
    decide +kernel
  have hgoal : ∀ t ∈ (Goal.related (.arrow (.const "le") (.const "le")) (.const "f")
      (.const "f")).terms, ∀ c ∈ t.symbols, Symbols.isMarked c = false := by decide
  have hnames : ∀ c ∈ withMonotone.theory.registry.names, Symbols.isMarked c = false := by decide
  obtain ⟨sol, hsol, hfound⟩ := exists_ok_of_any hsolved
  refine ⟨sol, hsol, hfound, ?_⟩
  rw [(solve_repeatable (E := withMonotone) (library_standard {}) hnames hgoal).1 3 10,
    Answer.result_smul, hsol]
  rfl

/-- An engine that was told that `f` and `g` take arguments which take `A`-related ones to
`B`-related ones to `C`-related results, and that the first constant minted from `x` keeps one
argument fixed. -/
def withMarkedHead : Engine :=
  let told : Option Registry := do
    let (_, r) ← Registry.addFact? {}
      (.arrow (.arrow (.const "A") (.const "B")) (.const "C")) (.const "f") (.const "g") (.const "w")
    return { r with parameters := r.parameters.insert "x#0" 1 }
  { Engine.new {} with theory := { Theory.standard {} with registry := told.getD {} } }

/-- What the fact says of `f` and `g`. -/
def functionGoal : Goal :=
  .related (.arrow (.arrow (.const "A") (.const "B")) (.const "C")) (.const "f") (.const "g")

/-- No term that this engine was told mentions a marked name, only a declaration does. It is about a
constant of the first search, and about none of the second one, which comes to another proof. -/
theorem withMarkedHead_differs :
    (∀ f ∈ withMarkedHead.theory.registry.facts.toList, ∀ t ∈ [f.rel, f.left, f.right, f.witness],
      ∀ c ∈ t.symbols, Symbols.isMarked c = false) ∧
    (∃ sol, (withMarkedHead.solve functionGoal).1.result = .ok sol ∧
      sol.proof?.any (·.size = 5) = true ∧ sol.stats.steps = 10) ∧
    ∃ sol, ((withMarkedHead.after [functionGoal]).solve functionGoal).1.result = .ok sol ∧
      sol.proof?.any (·.size = 8) = true ∧ sol.stats.steps = 8 := by
  have hfirst : (withMarkedHead.solve functionGoal).1.result.toOption.any
      (fun sol => sol.proof?.any (·.size = 5) && decide (sol.stats.steps = 10)) = true := by
    decide +kernel
  have hsecond : ((withMarkedHead.after [functionGoal]).solve functionGoal).1.result.toOption.any
      (fun sol => sol.proof?.any (·.size = 8) && decide (sol.stats.steps = 8)) = true := by
    decide +kernel
  obtain ⟨sol, hsol, hfound⟩ := exists_ok_of_any hfirst
  obtain ⟨sol', hsol', hfound'⟩ := exists_ok_of_any hsecond
  simp only [Bool.and_eq_true, decide_eq_true_eq] at hfound hfound'
  exact ⟨by decide, ⟨sol, hsol, hfound⟩, sol', hsol', hfound'⟩

end Engine

end Monotonicity
