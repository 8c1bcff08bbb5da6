import Monotonicity.Proofs.Ground.Constants
import Monotonicity.Proofs.Query.Observation

/-!
# Lists are related element by element

If all facts are between constants, then two lists of constants are related by the lifting of a
constant exactly if they have the same length and the constants at each position are registered as
related. The introduction rule of the relator goes down both lists at once (`solve_lists_decides`);
of the goals in progress each is about a longer list than the one inside it, so none is met twice,
and there are never more of them than the shorter list has elements, and two.
-/

namespace Monotonicity

open Search Registration

/-- A list of constants. -/
def Term.list : List String → Term
  | [] => .const "nil"
  | a :: as => .app "cons" [.const a, list as]

namespace Term

variable {as bs : List String}

theorem ground_list (as : List String) : (Term.list as).ground = true := by
  induction as with
  | nil => simp [Term.list]
  | cons a as ih => simp [Term.list, ih]

theorem list_injective (h : Term.list as = .list bs) : as = bs := by
  induction as generalizing bs with
  | nil =>
    cases bs with
    | nil => rfl
    | cons b bs => simp [Term.list] at h
  | cons a as ih =>
    cases bs with
    | nil => simp [Term.list] at h
    | cons b bs =>
      obtain ⟨rfl, hrest⟩ : a = b ∧ Term.list as = .list bs := by simpa [Term.list] using h
      rw [ih hrest]

theorem exists_list_eq (as : List String) : ∃ f xs, Term.list as = .app f xs := by
  cases as with
  | nil => exact ⟨_, _, rfl⟩
  | cons a as => exact ⟨_, _, rfl⟩

end Term

/-- The goal that the lifting of a constant to lists relates two lists of constants. -/
def Goal.lists (r : String) (as bs : List String) : Goal :=
  .related (.app Relator.list.head [.const r]) (.list as) (.list bs)

/-- The theory has the standard rules and all relators of the library, and no scheme but theirs. -/
structure Theory.Relational (T : Theory) : Prop where
  stocked : T.Stocked
  rules : ∀ r : Relator, r.rule ∈ T.rules
  schemes : ∀ r : Relator, T.registry.schemes.get? r.head = some ⟨r.cases⟩
  others : ∀ head, (∀ r : Relator, head ≠ r.head) → T.registry.schemes.get? head = none

theorem Theory.relational_standard (limits : Limits) :
    (Theory.standard limits).addRelators.Relational where
  stocked rule hrule := by
    simp only [addRelators, Relator.all, List.foldl_cons, List.foldl_nil, addRelator, addRule,
      (Rule.insert_perm _ _).mem_iff, List.mem_cons]
    exact .inr (.inr (.inr (.inr (mem_insertAll.2 (.inl hrule)))))
  rules r := by
    simp only [addRelators, Relator.all, List.foldl_cons, List.foldl_nil, addRelator, addRule,
      (Rule.insert_perm _ _).mem_iff, List.mem_cons]
    cases r <;> simp
  schemes r := by cases r <;> rfl
  others head hhead := by
    simp only [addRelators, Relator.all, List.foldl_cons, List.foldl_nil, addRelator, addRule,
      Table.get?_insert_of_ne _ (hhead _)]
    rfl

variable {T : Theory} {calls : List Registration}

namespace Search

variable {ρ : Type} {s t : State} {r a b : String} {as bs : List String} {room : Nat}
  {k : Proof → Search ρ} {P Q : Prop}

/-! ## Introductions -/

theorem relatorIntro_refuses {rel left right : Term} {head : String} {args : List Term}
    (hview : s.subst.view rel = .named head args)
    (hscheme : T.registry.schemes.get? head = none) :
    (relatorIntro T (.related rel left right)).Refuses s := by
  refine .subst ?_
  rw [hview]
  dsimp only
  rw [hscheme]
  exact .bind .noRule

theorem view_lists (σ : Subst) (r : String) :
    σ.view (.app Relator.list.head [.const r]) = .named Relator.list.head [.const r] :=
  σ.view_named (by decide) (by simp)

/-- The introduction of a list goes by the pair of constructors. -/
theorem relatorIntro_lists (hT : T.Relational) {f g : String} {xs ys : List Term}
    (hleft : Term.list as = .app f xs) (hright : Term.list bs = .app g ys) :
    (relatorIntro T (.lists r as bs)).run s =
      (require (Relator.list.cases.find? fun p =>
          p.left = f ∧ p.right = g ∧ p.fields.length = xs.length ∧ xs.length = ys.length)
          (noRule (.lists r as bs)) >>= fun pair =>
        fieldGoals (.lists r as bs) (.app Relator.list.head [.const r]) [.const r]
          (pair.fields.zip (xs.zip ys)) >>= fun goals =>
        (pure { subgoals := goals } : Search Reduction)).run s := by
  have hrel : s.subst.resolve (.app Relator.list.head [.const r]) =
      .app Relator.list.head [.const r] :=
    (Term.leaves_of_ground (by simp) s.subst).resolve_eq
  have hleft' : s.subst.walk (Term.list as) = .app f xs :=
    (Term.leaves_of_ground (Term.ground_list as) s.subst).walk_eq.trans hleft
  have hright' : s.subst.walk (Term.list bs) = .app g ys :=
    (Term.leaves_of_ground (Term.ground_list bs) s.subst).walk_eq.trans hright
  unfold Goal.lists relatorIntro
  dsimp only
  rw [run_bind]
  simp only [Search.subst, view_lists, hT.schemes .list, hleft', hright', hrel]
  rfl

theorem relatorIntro_nil (hT : T.Relational) : (relatorIntro T (.lists r [] [])).Gives s {} := by
  have hrun : (relatorIntro T (.lists r [] [])).run s = _ := relatorIntro_lists hT rfl rfl
  exact ⟨s, hrun, .refl s⟩

theorem relatorIntro_cons (hT : T.Relational) :
    (relatorIntro T (.lists r (a :: as) (b :: bs))).Gives s
      { subgoals := [.related (.const r) (.const a) (.const b), .lists r as bs] } := by
  have hrun : (relatorIntro T (.lists r (a :: as) (b :: bs))).run s = _ :=
    relatorIntro_lists hT rfl rfl
  exact ⟨s, hrun, .refl s⟩

/-- An empty list is not introduced together with another one. -/
theorem relatorIntro_uneven (hT : T.Relational) (h : as = [] ↔ bs ≠ []) :
    (relatorIntro T (.lists r as bs)).Refuses s := by
  have hrun : (relatorIntro T (.lists r as bs)).run s =
      (noRule (.lists r as bs) : Search Reduction).run s := by
    cases as with
    | nil =>
      cases bs with
      | nil => simp at h
      | cons b bs =>
        have hrun : (relatorIntro T (.lists r [] (b :: bs))).run s = _ :=
          relatorIntro_lists hT rfl rfl
        exact hrun
    | cons a as =>
      cases bs with
      | nil =>
        have hrun : (relatorIntro T (.lists r (a :: as) [])).run s = _ :=
          relatorIntro_lists hT rfl rfl
        exact hrun
      | cons b bs => simp at h
  exact ⟨_, s, hrun, .refl s, rfl⟩

/-! ## The search -/

/-- An element of a list is related to another if that is registered. -/
theorem solve_element_decides (hT : T.Elementary calls) (hrel : T.Relational) (hs : s.Clear)
    (hr : r ∉ Reserved.all) (hhead : ∀ q : Relator, r ≠ q.head)
    (hnew : .related (.const r) (.const a) (.const b) ∉ s.active)
    (hk : ∀ p t, s.Kept t → Decides T (k p) t Q) :
    Decides T (solve T (room + 2) ρ (.related (.const r) (.const a) (.const b)) k) s
      (Links calls r a b ∧ Q) := by
  refine (solve_named_decides (B := False) hT hrel.stocked hs hr (by simp) (by simp) (by simp) hk
    rfl (fun rule _ hmethod k' t _ _ => ?_) False.elim).congr ?_
  · rw [applyRule, hmethod]
    have hview : t.subst.view (.const r) = .named r [] := t.subst.view_named hr (by simp)
    exact .of_refuses (.bind (relatorIntro_refuses hview (hrel.others r hhead))) id
  · simp [hnew, LinksTerms]

/-- A goal about lists is proved by introduction or not at all. -/
theorem solve_lists_of_intro (hT : T.Elementary calls) (hrel : T.Relational) (hs : s.Clear)
    (hnew : .lists r as bs ∉ s.active) (hk : ∀ p t, s.Kept t → Decides T (k p) t Q)
    (hintro : ∀ rule : Rule, rule.method = .relatorIntro →
      ∀ (k' : Proof → Search ρ) t, (s.enter (.lists r as bs)).Kept t →
        (∀ p u, t.Kept u → Decides T (k' p) u Q) →
        Decides T (applyRule T (solve T (room + 1)) (.lists r as bs) k' rule) t P) :
    Decides T (solve T (room + 2) ρ (.lists r as bs) k) s P := by
  obtain ⟨f, xs, hleft⟩ := Term.exists_list_eq as
  obtain ⟨g, ys, hright⟩ := Term.exists_list_eq bs
  have hgoal : Goal.lists r as bs =
      .related (.app Relator.list.head [.const r]) (.app f xs) (.app g ys) := by
    rw [Goal.lists, hleft, hright]
  refine (solve_named_decides hT hrel.stocked hs (by decide) (by simp) (hleft ▸ Term.ground_list as)
    (hright ▸ Term.ground_list bs) hk hgoal (fun rule _ => hintro rule) fun _ => ?_).congr ?_
  · refine ⟨Relator.list.rule, hrel.rules .list, ?_, rfl⟩
    simp [Relator.rule, Goal.lists, Pattern.fits, view_lists, View.shape]
  · simp [hnew, LinksTerms]

/-- A goal about shorter lists than those in progress is new. -/
theorem lists_notMem
    (h : ∀ g ∈ s.active, ∃ as' bs', g = .lists r as' bs' ∧ as.length < as'.length) :
    .lists r as bs ∉ s.active := by
  intro hmem
  obtain ⟨as', bs', heq, hlen⟩ := h _ hmem
  have hlist : Term.list as = .list as' := (Goal.related.inj heq).2.1
  rw [Term.list_injective hlist] at hlen
  exact lt_irrefl _ hlen

/-- A solver goes down both lists at once. -/
theorem solve_lists_decides (hT : T.Elementary calls) (hrel : T.Relational)
    (hr : r ∉ Reserved.all) (hhead : ∀ q : Relator, r ≠ q.head) (hs : s.Clear)
    (hactive : ∀ g ∈ s.active, ∃ as' bs', g = .lists r as' bs' ∧ as.length < as'.length)
    (hroom : min as.length bs.length + 2 ≤ room)
    (hk : ∀ p t, s.Kept t → Decides T (k p) t Q) :
    Decides T (solve T room ρ (.lists r as bs) k) s (List.Forall₂ (Links calls r) as bs ∧ Q) := by
  induction as generalizing bs s k room Q with
  | nil =>
    obtain ⟨n, rfl⟩ : ∃ n, room = n + 2 := ⟨room - 2, by omega⟩
    refine solve_lists_of_intro hT hrel hs (lists_notMem hactive) hk
      fun rule hmethod k' t ht hk' => ?_
    rw [applyRule, hmethod]
    cases bs with
    | nil =>
      refine .of_gives (relatorIntro_nil hrel) fun u hu => ?_
      exact (hk' _ u hu).congr (by simp)
    | cons b bs => exact .of_refuses (.bind (relatorIntro_uneven hrel (by simp))) (by simp)
  | cons a as ih =>
    obtain ⟨n, rfl⟩ : ∃ n, room = n + 2 := ⟨room - 2, by omega⟩
    refine solve_lists_of_intro hT hrel hs (lists_notMem hactive) hk
      fun rule hmethod k' t ht hk' => ?_
    rw [applyRule, hmethod]
    cases bs with
    | nil => exact .of_refuses (.bind (relatorIntro_uneven hrel (by simp))) (by simp)
    | cons b bs =>
      obtain ⟨n, rfl⟩ : ∃ m, n = m + 1 := ⟨n - 1, by simp at hroom; omega⟩
      refine .of_gives (relatorIntro_cons hrel) fun u hu => ?_
      have hsu : (s.enter (.lists r (a :: as) (b :: bs))).Kept u := ht.trans hu
      have hclear : u.Clear := (hs.enter _).kept hsu
      have hlonger : ∀ g ∈ u.active, ∃ as' bs', g = .lists r as' bs' ∧ as.length < as'.length := by
        rw [hsu.active]
        refine List.forall_mem_cons.2 ⟨⟨_, _, rfl, by simp⟩, fun g hg => ?_⟩
        obtain ⟨as', bs', heq, hlen⟩ := hactive g hg
        exact ⟨as', bs', heq, by simp at hlen; omega⟩
      -- the element first, and behind it the tails
      refine (solve_element_decides (Q := List.Forall₂ (Links calls r) as bs ∧ Q) hT hrel hclear hr
        hhead (fun hmem => ?_) fun p v hv => ?_).congr ?_
      · obtain ⟨as', bs', heq, -⟩ := hlonger _ hmem
        simp [Goal.lists] at heq
      · refine ih (hclear.kept hv) ?_ ?_ fun q w hw => hk' _ w (hu.trans (hv.trans hw))
        · rw [hv.active]
          exact hlonger
        · simp at hroom
          omega
      · rw [List.forall₂_cons, and_assoc]

end Search

/-! ## Answers -/

namespace Engine

variable {E : Engine} {sol : Solution}

/-- With the standard rules and the relators of the library, nothing put off, and facts between
constants only, `solve` decides whether two lists of constants are related by the lifting of a
constant that is neither reserved nor a relator. An answer with steps to spare is a proof outright
if the lists have the same length and the constants at each position are registered as related.
Otherwise it is a failure, and not for a limit. It is enough that there is room for three goals more
than the longer list has elements. -/
theorem lists_related_pointwise (hE : E.theory.Elementary calls) (hrel : E.theory.Relational)
    {r : String} (hr : r ∉ Reserved.all) (hhead : ∀ q : Relator, r ≠ q.head) (as bs : List String)
    (hdepth : max as.length bs.length + 3 ≤ E.theory.limits.maxDepth)
    (h : (E.solve (.lists r as bs)).1.result = .ok sol)
    (hsteps : sol.stats.steps < E.theory.limits.fuel) :
    (List.Forall₂ (Links calls r) as bs → sol.isSolved = true) ∧
    (¬ List.Forall₂ (Links calls r) as bs →
      ∃ why, sol.verdict = .failed why ∧ why.isExhausted = false) := by
  have hclear (bound : Nat) : (E.start bound).Clear := ⟨Subst.acyclic_empty, rfl⟩
  refine answer_of_decides (fun bound => ?_) h hsteps
  refine (solve_lists_decides (Q := True) hE hrel hr hhead (hclear bound) ?_ ?_
    fun p t _ => .pure trivial).congr (by simp)
  · simp [start]
  · omega

/-- Facts of both kinds, one of them twice, one about `nil` under the relator's name, and one under
another relation. -/
def someLinks : List Registration :=
  [.pair (.const "R") (.const "a") (.const "b") (.const "ab"),
    .self (.const "R") (.const "c") (.app "at" [.var 0]),
    .pair (.const "list_rel") (.const "nil") (.const "nil") (.const "nils"),
    .pair (.const "S") (.const "b") (.const "a") (.const "ba"),
    .pair (.const "R") (.const "a") (.const "b") (.const "again")]

/-- An engine with the relators that was told of the links. -/
def withLinks : Engine :=
  let theory := (Theory.standard {}).addRelators
  { Engine.new {} with
    theory := { theory with
      registry := someLinks.foldl (fun r c => c.addTo r) theory.registry } }

theorem elementary_withLinks : withLinks.theory.Elementary someLinks where
  library := (library_standard {}).addRelators
  records := by
    have start : (Theory.standard {}).addRelators.registry.Records [] := .start rfl rfl rfl
    exact ((((start.addTo _ (by decide)).addTo _ (by decide)).addTo _ (by decide)).addTo _
      (by decide)).addTo _ (by decide)
  facts c hc := by
    simp only [someLinks, List.mem_cons, List.not_mem_nil, or_false] at hc
    rcases hc with rfl | rfl | rfl | rfl | rfl
    · exact .pair (by decide) "a" "b" _
    · exact .self (by decide) "c" _
    · exact .pair (by decide) "nil" "nil" _
    · exact .pair (by decide) "b" "a" _
    · exact .pair (by decide) "a" "b" _
  inclusions := rfl
  limits := rfl

/-- Lists that are related, lists with a position at which only another relation relates the
elements, and lists of different lengths. -/
theorem withLinks_related_pointwise :
    (∃ sol, (withLinks.solve (.lists "R" ["a", "c", "a"] ["b", "c", "b"])).1.result = .ok sol ∧
      sol.isSolved = true) ∧
    (∃ sol why, (withLinks.solve (.lists "R" ["a", "b"] ["b", "a"])).1.result = .ok sol ∧
      sol.verdict = .failed why ∧ why.isExhausted = false) ∧
    ∃ sol why, (withLinks.solve (.lists "R" ["a", "c"] ["b"])).1.result = .ok sol ∧
      sol.verdict = .failed why ∧ why.isExhausted = false := by
  have hstandard := Theory.relational_standard {}
  have hrelational : withLinks.theory.Relational :=
    ⟨hstandard.stocked, hstandard.rules, hstandard.schemes, hstandard.others⟩
  have hhead : ∀ q : Relator, "R" ≠ q.head := fun q => by cases q <;> decide
  have hanswer (as bs : List String) (hdepth : max as.length bs.length + 3 ≤ 64)
      (hsteps : (withLinks.solve (.lists "R" as bs)).1.result.toOption.any
        (fun sol => decide (sol.stats.steps < 100000)) = true) :
      ∃ sol, (withLinks.solve (.lists "R" as bs)).1.result = .ok sol ∧
        (List.Forall₂ (Links someLinks "R") as bs → sol.isSolved = true) ∧
        (¬ List.Forall₂ (Links someLinks "R") as bs →
          ∃ why, sol.verdict = .failed why ∧ why.isExhausted = false) := by
    obtain ⟨sol, hsol, hsteps⟩ := exists_ok_of_any hsteps
    exact ⟨sol, hsol, lists_related_pointwise elementary_withLinks hrelational (by decide) hhead
      as bs hdepth hsol (of_decide_eq_true hsteps)⟩
  refine ⟨?_, ?_, ?_⟩
  · obtain ⟨sol, hsol, hsolved, -⟩ :=
      hanswer ["a", "c", "a"] ["b", "c", "b"] (by decide) (by decide +kernel)
    exact ⟨sol, hsol, hsolved (by decide)⟩
  · obtain ⟨sol, hsol, -, hfailed⟩ := hanswer ["a", "b"] ["b", "a"] (by decide) (by decide +kernel)
    obtain ⟨why, hwhy⟩ := hfailed (by decide)
    exact ⟨sol, why, hsol, hwhy⟩
  · obtain ⟨sol, hsol, -, hfailed⟩ := hanswer ["a", "c"] ["b"] (by decide) (by decide +kernel)
    obtain ⟨why, hwhy⟩ := hfailed (by decide)
    exact ⟨sol, why, hsol, hwhy⟩

end Engine

end Monotonicity
