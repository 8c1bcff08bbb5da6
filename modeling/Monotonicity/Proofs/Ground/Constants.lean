import Monotonicity.Proofs.Ground.Complete
import Monotonicity.Proofs.Ground.Decision
import Monotonicity.Proofs.Registry.Index

/-!
# Facts between constants

In an elementary theory all facts relate constants by constants, and no inclusions are registered.
Under a relation with a head that is not reserved there are then two ways to a proof only: a fact
that is the goal as it stands, and an introduction by a scheme. All the other rules fail, and so
does every candidate that covers less than the whole goal or has another relation. The main result
is `solve_named_decides`, which leaves open what the introduction decides.
-/

namespace Monotonicity

open Search

/-! ## What is registered -/

namespace Registration

variable {calls : List Registration} {rel a b : String}

/-- Constants are registered as related by a constant that is not reserved. -/
inductive Elementary : Registration → Prop
  | pair {rel : String} (hrel : rel ∉ Reserved.all) (left right : String) (witness : Term) :
      Elementary (.pair (.const rel) (.const left) (.const right) witness)
  | self {rel : String} (hrel : rel ∉ Reserved.all) (term : String) (witness : Term) :
      Elementary (.self (.const rel) (.const term) witness)

/-- That the relation relates the two constants is registered, as a fact about them or as one about
a constant that is related to itself. -/
def Links (calls : List Registration) (rel a b : String) : Prop :=
  ∃ witness, .pair (.const rel) (.const a) (.const b) witness ∈ calls ∨
    a = b ∧ .self (.const rel) (.const a) witness ∈ calls

theorem links_iff : Links calls rel a b ↔ ∃ c ∈ calls, c.fact.rel = .const rel ∧
    c.fact.left = .const a ∧ c.fact.right = .const b := by
  constructor
  · rintro ⟨witness, h | ⟨rfl, h⟩⟩
    · exact ⟨_, h, rfl, rfl, rfl⟩
    · exact ⟨_, h, rfl, rfl, rfl⟩
  · rintro ⟨c, hc, hrel, hleft, hright⟩
    cases c with
    | pair rel' left right witness =>
      obtain rfl : rel' = .const rel := hrel
      obtain rfl : left = .const a := hleft
      obtain rfl : right = .const b := hright
      exact ⟨witness, .inl hc⟩
    | self rel' term witness =>
      obtain rfl : rel' = .const rel := hrel
      obtain rfl : term = .const a := hleft
      obtain rfl : a = b := by simpa [fact] using hright
      exact ⟨witness, .inr ⟨rfl, hc⟩⟩

instance (calls : List Registration) (rel a b : String) : Decidable (Links calls rel a b) :=
  decidable_of_iff _ links_iff.symm

/-- The terms are constants, and that they are related is registered. -/
def LinksTerms (calls : List Registration) (rel left right : Term) : Prop :=
  ∃ r a b, Links calls r a b ∧ rel = .const r ∧ left = .const a ∧ right = .const b

end Registration

open Registration

/-- The theory has rules of the library only, all its facts relate constants by constants that are
not reserved, there are no inclusions, and nothing is put off. -/
structure Theory.Elementary (T : Theory) (calls : List Registration) : Prop where
  library : T.Library
  records : T.registry.Records calls
  facts : ∀ c ∈ calls, c.Elementary
  inclusions : T.registry.inclusions = #[]
  limits : T.limits.deferUnsolved = false

/-- The candidate is a fact about two constants. -/
structure Candidate.Between (c : Candidate) (rel a b : String) : Prop where
  rel : c.rel = .const rel
  left : c.left = .const a
  right : c.right = .const b
  consumed : c.consumed = 0

/-- Nothing is assumed, and no bindings run in a circle. -/
structure State.Clear (s : State) : Prop where
  acyclic : s.subst.Acyclic
  hyps : s.hyps = []

theorem State.Clear.kept {s t : State} (hs : s.Clear) (h : s.Kept t) : t.Clear :=
  ⟨h.subst ▸ hs.acyclic, h.hyps.trans hs.hyps⟩

theorem State.Clear.enter {s : State} (hs : s.Clear) (goal : Goal) : (s.enter goal).Clear :=
  ⟨hs.acyclic, hs.hyps⟩

/-- Only heads that are reserved make a relation more than a name with arguments. -/
theorem Term.view_app {head : String} (h : head ∉ Reserved.all) (args : List Term) :
    (Term.app head args).view = .named head args := by
  simp only [Reserved.all, List.mem_cons, List.not_mem_nil, or_false, not_or] at h
  match args with
  | [] => simp [Term.view, Subst.view, Subst.unflipFor, Term.unflip, View.ofHead, h]
  | [x] => simp [Term.view, Subst.view, Subst.unflipFor, Term.unflip, View.ofHead, h]
  | [x, y] => simp [Term.view, Subst.view, Subst.unflipFor, Term.unflip, View.ofHead, h]
  | x :: y :: z :: rest =>
    simp [Term.view, Subst.view, Subst.unflipFor, Term.unflip, View.ofHead]

theorem Subst.view_named (σ : Subst) {head : String} {args : List Term} (h : head ∉ Reserved.all)
    (hground : (Term.app head args).ground = true) :
    σ.view (.app head args) = .named head args :=
  (Term.leaves_of_ground hground σ).view_eq.trans (Term.view_app h args)

variable {T : Theory} {calls : List Registration}

namespace Theory.Elementary

variable {r a b : String} {batch : Batch}

/-- A fact is one that was registered. -/
theorem exists_links (hT : T.Elementary calls) {id : Nat} {f : Fact}
    (hf : T.registry.facts[id]? = some f) : ∃ r a b, r ∉ Reserved.all ∧ Links calls r a b ∧
      f.rel = .const r ∧ f.left = .const a ∧ f.right = .const b := by
  rw [hT.records.getElem?_facts] at hf
  obtain ⟨c, hc, rfl⟩ := Option.map_eq_some_iff.1 hf
  have hmem : c ∈ calls := List.mem_of_getElem? hc
  cases hT.facts c hmem with
  | pair hrel left right witness =>
    exact ⟨_, left, right, hrel, ⟨witness, .inl hmem⟩, rfl, rfl, rfl⟩
  | self hrel term witness =>
    exact ⟨_, term, term, hrel, ⟨witness, .inr ⟨rfl, hmem⟩⟩, rfl, rfl, rfl⟩

/-- What was registered is looked up. -/
theorem exists_lookup (hT : T.Elementary calls) (h : Links calls r a b)
    (hcovers : batch.covers 0 = true) : ∃ id f, id ∈ T.registry.lookup .left a batch ∧
      T.registry.facts[id]? = some f ∧ f.rel = .const r ∧ f.left = .const a ∧
      f.right = .const b := by
  obtain ⟨c, hc, hrel, hleft, hright⟩ := links_iff.1 h
  obtain ⟨id, hid⟩ := List.mem_iff_getElem?.1 hc
  have hside : c.side .left = .const a := hleft
  refine ⟨id, c.fact, ?_, by simp [hT.records.getElem?_facts, hid], hrel, hleft, hright⟩
  cases batch with
  | exact k =>
    obtain rfl : 0 = k := by simpa [Batch.covers] using hcovers
    rw [Registry.lookup, hT.records.byShape_eq, mem_scan_append]
    exact ⟨c, hid, by simp [hside, Term.hasShape]⟩
  | parameters p k =>
    rw [Registry.lookup, hT.records.byHead_eq, mem_scan_append]
    exact ⟨c, hid, by simp [hside, Term.hasHead]⟩

end Theory.Elementary

/-- Some look-up for a constant finds facts about it. -/
theorem Batch.exists_covers_zero (params : Option Nat) :
    ∃ batch ∈ Batch.plan params 0, batch.covers 0 = true := by
  cases params with
  | none => exact ⟨.exact 0, by simp [plan, countdown], rfl⟩
  | some p =>
    by_cases hp : p ≤ 0
    · exact ⟨.parameters p 0, by simp [plan, hp], by simpa [covers] using hp⟩
    · exact ⟨.exact 0, by simp [plan, hp, countdown], rfl⟩

namespace Search

variable {α ρ : Type} {s t : State} {goal : Goal} {r a b f g head : String}
  {args xs ys : List Term} {batch : Batch} {c : Candidate} {room : Nat} {Q : Prop}

/-! ## Looking up -/

/-- A look-up finds facts between constants only, and these only if it is for constants. -/
theorem probe_between (hT : T.Elementary calls) (hs : s.Clear) :
    (probe T .left f batch).Gets s fun cs t => s.Kept t ∧ ∀ c ∈ cs, batch.covers 0 = true ∧
      ∃ r a b, r ∉ Reserved.all ∧ Links calls r a b ∧ c.Between r a b := by
  refine probe_gets.mono fun cs t _ ⟨ht, hcs⟩ => ⟨ht, fun c hc => ?_⟩
  have hconst (name : String) (offset : Nat) :
      (Term.const name).rename offset = .const name :=
    Term.rename_of_ground (Term.plainGround_const name).ground offset
  cases hcs c hc with
  | hypothesis hh =>
    rw [hs.hyps] at hh
    cases hh
  | @fact id offset fact f args hfact hside hcovers _ =>
    obtain ⟨r, a, b, hr, hlinks, hrel, hleft, hright⟩ := hT.exists_links hfact
    have happ : fact.left = .app f args := hside
    obtain ⟨-, rfl⟩ : f = a ∧ args = [] := by simpa [hleft, eq_comm] using happ
    refine ⟨hcovers, r, a, b, hr, hlinks, ?_, ?_, ?_, rfl⟩
    · simp [Fact.rename, hrel, hconst]
    · simp [Fact.rename, hleft, hconst]
    · simp [Fact.rename, hright, hconst]

theorem probe_finds_between (hT : T.Elementary calls) (h : Links calls r a b)
    (hcovers : batch.covers 0 = true) :
    (probe T .left a batch).Gets s fun cs _ => ∃ c ∈ cs, c.Between r a b := by
  obtain ⟨id, f, hid, hf, hrel, hleft, hright⟩ := hT.exists_lookup h hcovers
  refine (probe_finds_fact hid hf hleft hcovers ?_).mono fun cs t _ hcs => ?_
  · simp [hrel, hleft, hright]
  · obtain ⟨source, witness, hmem⟩ := hcs
    exact ⟨_, hmem, hrel, rfl, hright, rfl⟩

/-! ## Inclusions -/

/-- Ground terms that differ are not unified. -/
theorem unify_gives_false {t u : Term} (hs : s.Clear) (ht : t.ground = true)
    (hu : u.ground = true) (hne : t ≠ u) : (unify t u).Gives s false := by
  let counted : State := s.counted fun n => { n with unifications := n.unifications + 1 }
  have hkept : s.Kept counted := s.kept_counted fun n => by simp [Stats.le_def]
  refine ⟨counted, ?_, hkept⟩
  change (assign t u).run counted = _
  have hnone : counted.subst.unify t u = none := by
    rw [Option.eq_none_iff_forall_not_mem]
    intro τ hτ
    have hgains := Subst.unify_gains hτ
    have hsame := hgains.resolve_eq (hgains.acyclic (hs.kept hkept).acyclic) (Subst.le_refl τ)
    rw [(Term.leaves_of_ground ht τ).resolve_eq, (Term.leaves_of_ground hu τ).resolve_eq] at hsame
    exact hne hsame
  simp only [assign, hnone]

/-- A constant is not included in another relation if neither is reserved and no inclusion is
registered. -/
theorem ordering_decides {prove : Prover} {name : String} {emit : Reduction → Search ρ}
    {method : Method} (hmethod : method ∈ Method.ordering) (hT : T.Elementary calls)
    (hs : s.Clear) (hr : r ∉ Reserved.all) (hhead : head ∉ Reserved.all)
    (hground : (Term.app head args).ground = true) (hne : Term.const r ≠ .app head args) :
    Decides T (method.run T prove name (.subrel (.const r) (.app head args)) emit) s False := by
  have hlesser : s.subst.view (.const r) = .named r [] := s.subst.view_named hr (by simp)
  have hgreater := s.subst.view_named hhead hground
  have hviews : View.named r [] ≠ .named head args := fun h => hne (by simpa using h)
  simp only [Method.ordering, List.mem_cons, List.not_mem_nil, or_false] at hmethod
  rcases hmethod with rfl | rfl | rfl | rfl | rfl | rfl
  · refine .of_refuses (.bind (.subst ?_)) id
    rw [hlesser, hgreater, if_neg hviews]
    exact (unify_gives_false hs (by simp) hground hne).refuses fun _ _ => .noRule
  · refine .of_refuses (.bind (.subst ?_)) id
    rw [hlesser, hgreater, if_neg (by simp)]
    exact .noRule
  · simp only [Method.run, subrelFact, eachInclusion, hT.inclusions]
    exact .of_refuses .noRule id
  · refine .of_refuses (.bind (.subst ?_)) id
    rw [hlesser, hgreater]
    dsimp only
    rw [if_neg fun h => hviews (by simp [h.1, List.length_eq_zero_iff.1 h.2.symm])]
    exact .noRule
  · simp only [Method.run, subrelTrans, eachInclusion, hT.inclusions]
    exact .of_refuses .noRule id
  · simp only [Method.run, deferUnsolved, hT.limits]
    exact .of_refuses (.bind .noRule) id

theorem solve_subrel_decides {k : Proof → Search ρ} (hT : T.Elementary calls) (hs : s.Clear)
    (hr : r ∉ Reserved.all) (hhead : head ∉ Reserved.all)
    (hground : (Term.app head args).ground = true) (hne : Term.const r ≠ .app head args) :
    Decides T (solve T (room + 1) ρ (.subrel (.const r) (.app head args)) k) s False := by
  have hresolve : (Goal.subrel (.const r) (.app head args)).resolve s.subst =
      .subrel (.const r) (.app head args) := by
    simp [Goal.resolve, Goal.map, (Term.leaves_of_ground hground s.subst).resolve_eq,
      (Term.leaves_of_ground (Term.plainGround_const r).ground s.subst).resolve_eq]
  refine (solve_decides (R := fun _ => False) hresolve fun rule hrule hfits t ht => ?_).congr
    (by simp)
  exact ordering_decides (hT.library.mem_ordering hrule hfits) hT ((hs.enter _).kept ht) hr hhead
    hground hne

/-! ## Candidates -/

theorem splitSide_const_gives (h : (Term.app a xs).ground = true) :
    (splitSide goal (.app a xs) (.const a) xs.length).Gives s xs := by
  have hgives : (splitSide goal (.app a ([] ++ xs)) (.app a []) xs.length).Gives s xs :=
    splitSide_gives h
  exact hgives

/-- A constant covers no side but one with its head and so many further arguments. -/
theorem splitSide_const_refuses {extra : Nat} (hs : s.Clear) (h : (Term.app f xs).ground = true)
    (hne : ¬ (f = a ∧ xs.length = extra)) :
    (splitSide goal (.app f xs) (.const a) extra).Refuses s := by
  refine .subst ?_
  rw [(Term.leaves_of_ground h s.subst).walk_eq]
  dsimp only
  split
  · exact .noCandidate
  · next hlen =>
    have hkept : (Term.app f (xs.take (xs.length - extra))).ground = true := by
      rw [Term.ground_app] at h ⊢
      exact fun t ht => h t (List.mem_of_mem_take ht)
    refine (unify_gives_false hs hkept (by simp) fun heq => hne ?_).refuses fun _ _ => .noCandidate
    obtain ⟨rfl, htake⟩ : f = a ∧ xs.take (xs.length - extra) = [] := by simpa using heq
    rw [List.take_eq_nil_iff] at htake
    refine ⟨rfl, ?_⟩
    rcases htake with hzero | rfl
    · omega
    · simp at hlen ⊢
      omega

/-- A relation that is a name takes no arguments. -/
theorem eliminate_refuses {prove : Prover} {e : Elimination} {x y : Term}
    {k : Elimination → Search ρ} (hrel : e.rel = .const r) (hr : r ∉ Reserved.all) :
    (eliminate prove goal e x y k).Refuses s := by
  have hview : s.subst.view e.rel = .named r [] := hrel ▸ s.subst.view_named hr (by simp)
  refine .subst ?_
  rw [hview]
  refine .subst ?_
  rw [hview]
  exact .gap

/-- A relation that is a name leads to itself only. -/
theorem bridge_decides {e : Elimination} {k : Elimination → Search ρ} (hT : T.Elementary calls)
    (hs : s.Clear) (hrel : e.rel = .const r) (hr : r ∉ Reserved.all) (hhead : head ∉ Reserved.all)
    (hground : (Term.app head args).ground = true) (hk : Decides T (k e) s Q) :
    Decides T (bridge (solve T (room + 1)) goal (.app head args) e k) s
      (.const r = Term.app head args ∧ Q) := by
  have hview : s.subst.view e.rel = .named r [] := hrel ▸ s.subst.view_named hr (by simp)
  refine .subst ?_
  rw [hview, s.subst.view_named hhead hground]
  split
  · next hsame =>
    obtain ⟨rfl, rfl⟩ : r = head ∧ [] = args := by simpa using hsame
    exact hk.congr (by simp)
  · next hdiffer =>
    have hne : Term.const r ≠ .app head args := fun h => hdiffer (by simpa using h)
    rw [hrel]
    refine (Decides.bridging (fun cross t ht => ?_) fun crossed why t hwhy => ?_).congr
      (by simp [hne])
    · exact solve_subrel_decides hT (hs.kept ht) hr hhead hground hne
    · split
      · exact .fail fun h => hwhy (h.resolve_left id)
      · exact .of_refuses .gap id

/-- A fact between constants leads to a proof of the goal that it is, and of no other. -/
theorem useCandidate_decides {emit : Reduction → Search ρ} (hT : T.Elementary calls) (hs : s.Clear)
    (hr : r ∉ Reserved.all) (hc : c.Between r a b) (hhead : head ∉ Reserved.all)
    (hrel : (Term.app head args).ground = true) (hleft : (Term.app f xs).ground = true)
    (hright : (Term.app g ys).ground = true)
    (hemit : ∀ r t, s.Kept t → r.subgoals = [] → Decides T (emit r) t Q) :
    Decides T (useCandidate (solve T (room + 1))
        (.related (.app head args) (.app f xs) (.app g ys)) xs.length emit c) s
      ((c.rel = .app head args ∧ c.left = .app f xs ∧ c.right = .app g ys) ∧ Q) := by
  obtain ⟨source, crel, left, right, witness, consumed⟩ := c
  obtain ⟨rfl, rfl, rfl, rfl⟩ := hc
  simp only [useCandidate, Nat.sub_zero]
  by_cases hfa : f = a
  · subst hfa
    refine .of_gives (splitSide_const_gives hleft) fun t ht => ?_
    by_cases hgb : g = b ∧ ys.length = xs.length
    · obtain ⟨rfl, hlen⟩ := hgb
      rw [← hlen]
      refine .of_gives (splitSide_const_gives hright) fun u hu => ?_
      have hsu : s.Kept u := ht.trans hu
      -- what is left of the sides is taken through the relation, which is a name
      cases xs with
      | nil =>
        obtain rfl : ys = [] := List.length_eq_zero_iff.1 hlen
        rw [List.zip_nil_left, eliminateAll]
        refine (bridge_decides (Q := Q) hT (hs.kept hsu) rfl hr hhead hrel ?_).congr (by simp)
        exact hemit _ u hsu rfl
      | cons x xs =>
        cases ys with
        | nil => cases hlen
        | cons y ys => exact .of_refuses (eliminate_refuses rfl hr) (by simp)
    · refine .of_refuses (.bind (splitSide_const_refuses (hs.kept ht) hright hgb)) fun h => hgb ?_
      obtain ⟨⟨-, hf, hg⟩, -⟩ := h
      simp_all
  · refine .of_refuses (.bind (splitSide_const_refuses hs hleft (by simp [hfa]))) fun h => hfa ?_
    exact (Term.app.inj h.1.2.1).1.symm

/-- A look-up for constants finds the goal itself if it is registered, and otherwise not. -/
theorem probe_decides (hT : T.Elementary calls) (hs : s.Clear) (rel right : Term)
    (args : List Term) :
    (probe T .left f batch).Gets s fun cs t => s.Kept t ∧
      (∀ c ∈ cs, ∃ r a b, r ∉ Reserved.all ∧ c.Between r a b) ∧
      ((∃ c ∈ cs, c.rel = rel ∧ c.left = .app f args ∧ c.right = right) ↔
        batch.covers 0 = true ∧ LinksTerms calls rel (.app f args) right) := by
  have hfinds : (probe T .left f batch).Gets s fun cs _ =>
      batch.covers 0 = true ∧ LinksTerms calls rel (.app f args) right →
        ∃ c ∈ cs, c.rel = rel ∧ c.left = .app f args ∧ c.right = right := by
    by_cases h : batch.covers 0 = true ∧ LinksTerms calls rel (.app f args) right
    · obtain ⟨hcovers, r, a, b, hlinks, hrel, hleft, hright⟩ := h
      obtain ⟨rfl, hnil⟩ := Term.app.inj hleft
      refine (probe_finds_between hT hlinks hcovers).mono fun cs t _ ⟨c, hc, hb⟩ _ => ?_
      exact ⟨c, hc, hb.rel.trans hrel.symm, hb.left.trans hleft.symm, hb.right.trans hright.symm⟩
    · exact probe_gets.mono fun _ _ _ _ hboth => (h hboth).elim
  refine ((probe_between hT hs).and hfinds).mono fun cs t _ ⟨⟨ht, hcs⟩, hfinds⟩ => ?_
  refine ⟨ht, fun c hc => ?_, fun ⟨c, hc, hrel, hleft, hright⟩ => ?_, hfinds⟩
  · obtain ⟨-, r, a, b, hr, -, hb⟩ := hcs c hc
    exact ⟨r, a, b, hr, hb⟩
  · obtain ⟨hcovers, r, a, b, -, hlinks, hb⟩ := hcs c hc
    exact ⟨hcovers, r, a, b, hlinks, hrel ▸ hb.rel, hleft ▸ hb.left, hright ▸ hb.right⟩

theorem tryBatches_decides {emit : Reduction → Search ρ} {best : Option Failure}
    (hT : T.Elementary calls) (hs : s.Clear) (hhead : head ∉ Reserved.all)
    (hrel : (Term.app head args).ground = true) (hleft : (Term.app f xs).ground = true)
    (hright : (Term.app g ys).ground = true)
    (hemit : ∀ r t, s.Kept t → r.subgoals = [] → Decides T (emit r) t Q) {batches : List Batch}
    (hbest : ∀ b ∈ best, b.isExhausted = false) :
    Decides T (tryBatches T (solve T (room + 1))
        (.related (.app head args) (.app f xs) (.app g ys)) .left f xs.length emit batches best) s
      (∃ batch ∈ batches, batch.covers 0 = true ∧
        LinksTerms calls (.app head args) (.app f xs) (.app g ys) ∧ Q) := by
  induction batches generalizing s best with
  | nil => exact .failBest .noCandidate hbest (by simp)
  | cons batch rest ih =>
    refine .of_gets (probe_decides hT hs (.app head args) (.app g ys) xs) probe_total
      fun cs t ht ⟨hcs, hiff⟩ => ?_
    refine (Decides.tryEach
      (R := fun c =>
        (c.rel = .app head args ∧ c.left = .app f xs ∧ c.right = .app g ys) ∧ Q)
      (Q := ∃ batch ∈ rest, batch.covers 0 = true ∧
        LinksTerms calls (.app head args) (.app f xs) (.app g ys) ∧ Q)
      (fun c hc u hu => ?_) (fun best u hu hbest => ?_) hbest).congr ?_
    · obtain ⟨r, a, b, hr, hb⟩ := hcs c hc
      have hsu := ht.trans hu
      exact useCandidate_decides hT (hs.kept hsu) hr hb hhead hrel hleft hright fun r v hv =>
        hemit r v (hsu.trans hv)
    · have hsu := ht.trans hu
      exact ih (hs.kept hsu) (fun r v hv => hemit r v (hsu.trans hv)) hbest
    · rw [List.exists_mem_cons_iff, ← and_assoc, ← hiff]
      simp only [← exists_and_right, and_assoc]

/-- The facts for the left side decide whether the goal is one of them. -/
theorem monotone_decides {emit : Reduction → Search ρ} (hT : T.Elementary calls) (hs : s.Clear)
    (hhead : head ∉ Reserved.all) (hrel : (Term.app head args).ground = true)
    (hleft : (Term.app f xs).ground = true) (hright : (Term.app g ys).ground = true)
    (hemit : ∀ r t, s.Kept t → r.subgoals = [] → Decides T (emit r) t Q) :
    Decides T (monotone T (solve T (room + 1)) .left
        (.related (.app head args) (.app f xs) (.app g ys)) emit) s
      (LinksTerms calls (.app head args) (.app f xs) (.app g ys) ∧ Q) := by
  refine .subst ?_
  rw [if_neg (by simp)]
  simp only [Side.pick, (Term.leaves_of_ground hleft s.subst).walk_eq]
  refine (tryBatches_decides hT hs hhead hrel hleft hright hemit (by simp)).congr ?_
  constructor
  · rintro ⟨batch, -, -, h⟩
    exact h
  · intro h
    obtain ⟨⟨r, a, b, -, -, ha, -⟩, -⟩ := id h
    obtain ⟨-, rfl⟩ := Term.app.inj ha
    obtain ⟨batch, hbatch, hcovers⟩ :=
      Batch.exists_covers_zero (T.registry.parameters.get? f)
    exact ⟨batch, hbatch, hcovers, h⟩

end Search

/-! ## Rules -/

/-- The methods of the rules that a goal under a named relation can fit, unless it is between case
analyses. -/
def Method.naming : List Method :=
  [.casesReduce, .monotone .left, .monotone .right, .deferUnsolved, .relatorIntro]

theorem Theory.Library.mem_naming (h : T.Library) {rule : Rule} (hrule : rule ∈ T.rules)
    {σ : Subst} {rel left right : Term} {head f : String} {args xs : List Term}
    (hview : σ.view rel = .named head args) (hleft : σ.walk left = .app f xs)
    (hfits : rule.pattern.fits σ (.related rel left right) = true) :
    rule.method ∈ Method.naming := by
  rcases h rule hrule with hstandard | ⟨r, rfl⟩
  · simp only [Rule.standard, List.mem_cons, List.not_mem_nil, or_false] at hstandard
    rcases hstandard with rfl | rfl | rfl | rfl | rfl | rfl | rfl | rfl | rfl | rfl | rfl | rfl |
      rfl | rfl | rfl | rfl | rfl | rfl <;>
      simp_all [Method.naming, Pattern.fits, View.shape, Term.asCases?]
  · simp [Relator.rule, Method.naming]

namespace Search

variable {ρ : Type} {s : State} {f g head : String} {args xs ys : List Term} {room : Nat}
  {k : Proof → Search ρ} {Q B : Prop}

/-- A solver decides of a goal under a named relation whether it is a fact, or whether the
introduction rules lead to a proof of it. -/
theorem solve_named_decides (hT : T.Elementary calls) (hrules : T.Stocked) (hs : s.Clear)
    (hhead : head ∉ Reserved.all) (hrel : (Term.app head args).ground = true)
    (hleft : (Term.app f xs).ground = true) (hright : (Term.app g ys).ground = true)
    (hk : ∀ p t, s.Kept t → Decides T (k p) t Q) {goal : Goal}
    (hgoal : goal = .related (.app head args) (.app f xs) (.app g ys))
    (hintro : ∀ rule ∈ T.rules, rule.method = .relatorIntro →
      ∀ (k' : Proof → Search ρ) t, (s.enter goal).Kept t →
        (∀ p u, t.Kept u → Decides T (k' p) u Q) →
        Decides T (applyRule T (solve T (room + 1)) goal k' rule) t B)
    (hrule : B → ∃ rule ∈ T.rules,
      rule.pattern.fits s.subst goal = true ∧ rule.method = .relatorIntro) :
    Decides T (solve T (room + 2) ρ goal k) s (goal ∉ s.active ∧
      (LinksTerms calls (.app head args) (.app f xs) (.app g ys) ∧ Q ∨ B)) := by
  subst hgoal
  have hview := s.subst.view_named hhead hrel
  have hwalk := (Term.leaves_of_ground hleft s.subst).walk_eq
  have hresolve : (Goal.related (.app head args) (.app f xs) (.app g ys)).resolve s.subst =
      .related (.app head args) (.app f xs) (.app g ys) := by
    simp [Goal.resolve, Goal.map, (Term.leaves_of_ground hrel s.subst).resolve_eq,
      (Term.leaves_of_ground hleft s.subst).resolve_eq,
      (Term.leaves_of_ground hright s.subst).resolve_eq]
  refine (solve_decides hresolve (R := fun rule =>
    rule.method = .monotone .left ∧
        LinksTerms calls (.app head args) (.app f xs) (.app g ys) ∧ Q ∨
      rule.method = .relatorIntro ∧ B) fun rule hmem hfits t ht => ?_).congr
    (and_congr_right fun _ => ⟨?_, ?_⟩)
  · have hk' : ∀ p u, t.Kept u → Decides T (outside _ (k p)) u Q := fun p u hu =>
      .outside (ht.trans hu) (hk p u.leave (ht.trans hu).of_enter)
    have hclear : t.Clear := (hs.enter _).kept ht
    have hmethod := hT.library.mem_naming hmem hview hwalk hfits
    simp only [Method.naming, List.mem_cons, List.not_mem_nil, or_false] at hmethod
    rcases hmethod with hmethod | hmethod | hmethod | hmethod | hmethod
    · rw [applyRule, hmethod]
      refine .of_refuses (.bind (.subst ?_)) (by simp)
      simp only [taken?, (Term.leaves_of_ground hleft t.subst).walk_eq,
        (Term.leaves_of_ground hright t.subst).walk_eq]
      exact .noRule
    · rw [applyRule, hmethod]
      refine (monotone_decides (Q := Q) hT hclear hhead hrel hleft hright
        fun r u hu hr => ?_).congr (by simp)
      rw [hr]
      exact hk' _ u hu
    · rw [applyRule, hmethod]
      refine .of_refuses (.subst ?_) (by simp)
      rw [(Term.leaves_of_ground hleft t.subst).walk_eq, if_pos (by simp [Term.asVar?])]
      exact .noRule
    · rw [applyRule, hmethod]
      simp only [Method.run, deferUnsolved, hT.limits]
      exact .of_refuses (.bind .noRule) (by simp)
    · exact (hintro rule hmem hmethod _ t ht hk').congr (by simp [hmethod])
  · rintro ⟨rule, -, -, ⟨-, h⟩ | ⟨-, h⟩⟩
    · exact .inl h
    · exact .inr h
  · rintro (h | h)
    · refine ⟨⟨"mono_left", Rule.monotonicity, .anyRelated, .monotone .left⟩, hrules _ ?_, rfl,
        .inl ⟨rfl, h⟩⟩
      simp [Rule.standard]
    · obtain ⟨rule, hmem, hfits, hmethod⟩ := hrule h
      exact ⟨rule, hmem, hfits, .inr ⟨hmethod, h⟩⟩

end Search

end Monotonicity
