import Monotonicity.Proofs.Limit.Success
import Monotonicity.Proofs.Order.Included

/-!
# Inclusions that hold are found

A solver with the standard rules proves every inclusion between ground relations that has a
derivation, unless a limit stops it (`Included.sure`). What could be in the way are goals in
progress: a goal is not proved again inside itself. But a derivation of least height does not use
its own conclusion, so it is enough that no goal in progress has a derivation of at most the height
in question. Each step of the derivation has its rule, and the goals that the rule leaves have
derivations of smaller height than the goal.
-/

namespace Monotonicity

open Search

namespace Search

variable {α β ρ : Type} {T : Theory} {m : Search α} {f : α → Search β} {s t : State} {a : α} {b : β}
  {goal : Goal}

/-- The search finds the value and leaves the state as it was, but for the ledger. -/
def Gives (m : Search α) (s : State) (a : α) : Prop := ∃ t, m.run s = .success a t ∧ s.Kept t

theorem Gives.pure : (pure a : Search α).Gives s a := ⟨s, rfl, .refl s⟩

theorem Gives.bind (hm : m.Gives s a) (hf : ∀ t, s.Kept t → (f a).Gives t b) :
    (m >>= f).Gives s b := by
  obtain ⟨t, hrun, ht⟩ := hm
  obtain ⟨u, hrun', hu⟩ := hf t ht
  exact ⟨u, by rw [run_bind, hrun]; exact hrun', ht.trans hu⟩

theorem Gives.prevails (hm : m.Gives s a) (hf : ∀ t, s.Kept t → Prevails T (f a) t) :
    Prevails T (m >>= f) s := by
  obtain ⟨t, hrun, ht⟩ := hm
  intro why u h
  rw [run_bind, hrun] at h
  exact hf t ht why u h

/-- A ground term is unified with itself. -/
theorem unify_gives {t : Term} (h : t.ground = true) : (unify t t).Gives s true := by
  let counted : State := s.counted fun n => { n with unifications := n.unifications + 1 }
  have hkept : s.Kept counted := s.kept_counted fun n => by simp [Stats.le_def]
  refine ⟨counted, ?_, hkept⟩
  change (assign t t).run counted = _
  simp only [assign]
  rw [Subst.unify_self h counted.subst]

/-! ## The rules for inclusions -/

variable {lesser greater : Term} {arguments : List (Term × Term × Variance)}

theorem subrelRefl_gives (h : s.subst.view lesser = s.subst.view greater) :
    (subrelRefl (.subrel lesser greater)).Gives s {} := by
  refine ⟨s, ?_, .refl s⟩
  change (if s.subst.view lesser = s.subst.view greater then _ else _ : Search Reduction).run s = _
  rw [if_pos h]
  rfl

theorem subrelExtremes_gives (h : s.subst.view greater = .top ∨ s.subst.view lesser = .bottom) :
    (subrelExtremes (.subrel lesser greater)).Gives s {} := by
  refine ⟨s, ?_, .refl s⟩
  change (if s.subst.view greater = .top ∨ s.subst.view lesser = .bottom then _ else _ :
    Search Reduction).run s = _
  rw [if_pos h]
  rfl

/-- Arguments that have to agree do so already. -/
theorem argumentInclusions_gives
    (h : ∀ a b, (a, b, Variance.invariant) ∈ arguments → a = b ∧ a.ground = true) :
    (argumentInclusions goal arguments).Gives s (argumentGoals arguments) := by
  induction arguments generalizing s with
  | nil => exact .pure
  | cons x rest ih =>
    obtain ⟨a, b, v⟩ := x
    have hrest := fun t => ih (s := t) fun a b hab => h a b (List.mem_cons_of_mem _ hab)
    cases v with
    | covariant => exact (hrest s).bind fun _ _ => .pure
    | contravariant => exact (hrest s).bind fun _ _ => .pure
    | invariant =>
      obtain ⟨rfl, hground⟩ := h a b List.mem_cons_self
      exact (unify_gives hground).bind fun t _ => hrest t

theorem subrelStructural_gives_arrow {a b a' b' : Term} (hl : s.subst.view lesser = .arrow a b)
    (hg : s.subst.view greater = .arrow a' b') :
    (subrelStructural T (.subrel lesser greater)).Gives s
      { subgoals := [.subrel a' a, .subrel b b'] } := by
  refine ⟨s, ?_, .refl s⟩
  simp only [subrelStructural, run_bind, Search.subst, hl, hg]
  rfl

theorem subrelStructural_gives_flip {a b : Term} (hl : s.subst.view lesser = .flip a)
    (hg : s.subst.view greater = .flip b) :
    (subrelStructural T (.subrel lesser greater)).Gives s { subgoals := [.subrel a b] } := by
  refine ⟨s, ?_, .refl s⟩
  simp only [subrelStructural, run_bind, Search.subst, hl, hg]
  rfl

theorem subrelStructural_gives_named {head : String} {xs ys : List Term} {variances : List Variance}
    (hl : s.subst.view lesser = .named head xs) (hg : s.subst.view greater = .named head ys)
    (hlen : xs.length = ys.length) (hv : T.registry.variances.get? head = some variances)
    (hlen' : variances.length = xs.length)
    (h : ∀ a b, (a, b, Variance.invariant) ∈ xs.zip (ys.zip variances) → a = b ∧ a.ground = true) :
    (subrelStructural T (.subrel lesser greater)).Gives s
      { subgoals := argumentGoals (xs.zip (ys.zip variances)) } := by
  have hcompare : (argumentInclusions (.subrel lesser greater) (xs.zip (ys.zip variances)) >>=
      fun goals => pure (Reduction.mk [] goals)).Gives s
        ⟨[], argumentGoals (xs.zip (ys.zip variances))⟩ :=
    (argumentInclusions_gives h).bind fun _ _ => .pure
  obtain ⟨t, hrun, ht⟩ := hcompare
  refine ⟨t, ?_, ht⟩
  rw [← hrun]
  simp only [subrelStructural, run_bind, Search.subst, hl, hg, hlen, and_self, if_true, hv, require,
    run_pure, hlen']

/-! ## Applying rules -/

variable {prove : Prover} {rule : Rule} {room : Nat}

/-- Goals each of which is sure to be proved are sure to be proved one after the other. -/
theorem proveAll_sure {k : List Proof → Search ρ} {goals : List Goal} {done : List Proof}
    (hgoals : ∀ g ∈ goals, Assured T ρ prove s g)
    (hk : ∀ ps t, s.Grown t → Sure T (k ps) t) : Sure T (proveAll prove k goals done) s := by
  induction goals generalizing s done with
  | nil => exact hk done s (.refl s)
  | cons g goals ih =>
    refine hgoals g List.mem_cons_self _ s (.refl s) fun p t ht => ?_
    refine ih (fun g hg => ?_) fun ps u hu => hk ps u (ht.trans hu)
    exact (hgoals g (List.mem_cons_of_mem _ hg)).later ht

/-- A rule that reduces the goal to goals that are sure to be proved. -/
theorem applyRule_prevails {k : Proof → Search ρ} {reduce : Search Reduction} {r : Reduction}
    (hrun : ∀ emit : Reduction → Search ρ,
      rule.method.run T prove rule.name goal emit = reduce >>= emit)
    (hgives : reduce.Gives s r) (hgoals : ∀ g ∈ r.subgoals, Assured T ρ prove s g)
    (hk : ∀ p t, s.Grown t → Sure T (k p) t) : Prevails T (applyRule T prove goal k rule) s := by
  rw [applyRule, hrun]
  refine hgives.prevails fun t ht => (proveAll_sure ?_ ?_).prevails
  · exact fun g hg => (hgoals g hg).later ht.grown
  · exact fun ps u hu => hk _ u (ht.grown.trans hu)

end Search

variable {T : Theory} {ρ : Type} {s : State} {room n : Nat} {lesser greater : Term}
  {k : Proof → Search ρ}

theorem Theory.Library.proveAll_mild (hT : T.Library) {k : List Proof → Search ρ}
    (hk : ∀ ps, (k ps).Mild) {goals : List Goal} {done : List Proof} :
    (proveAll (solve T room) k goals done).Mild :=
  ((solve_upheld hT.candid (fun _ _ _ => exhausted) room).proveAll fun ps => .refl (hk ps)).mild

theorem Theory.Library.proveAll_yields (hT : T.Library) (hacyclic : s.subst.Acyclic)
    {k : List Proof → Search ρ} (hk : ∀ ps t, s.Grown t → (k ps).Yields t fun _ _ => True)
    {goals : List Goal} {done : List Proof} :
    (proveAll (solve T room) k goals done).Yields s fun _ _ => True := by
  induction goals generalizing s done with
  | nil => exact hk done s (.refl s)
  | cons g goals ih =>
    refine hT.yields closed_true hacyclic fun p t ht _ => ih (ht.acyclic hacyclic) ?_
    exact fun ps u hu => hk ps u (ht.trans hu)

/-- The rule that goes through registered inclusions finds the one that leads on. -/
theorem subrelTrans_prevails (hT : T.Library) (hacyclic : s.subst.Acyclic) {rule : Rule}
    (hmethod : rule.method = .subrelTrans) {f : Inclusion} (hf : f ∈ T.registry.inclusions)
    (hl : f.lesser.ground = true) (hg : f.greater.ground = true)
    (hgoal : Assured T ρ (solve T room) s (.subrel f.greater greater))
    (hk : ∀ p t, s.Grown t → Sure T (k p) t) :
    Prevails T (applyRule T (solve T room) (.subrel f.lesser greater) k rule) s := by
  obtain ⟨id, hid⟩ := Array.mem_iff_getElem?.1 hf
  have hmem : (f, id) ∈ T.registry.inclusions.toList.zipIdx := by
    simpa [List.mem_zipIdx_iff_getElem?] using hid
  rw [applyRule, hmethod]
  simp only [Method.run, subrelTrans, eachInclusion]
  refine tryEach_prevails_of_mem ?_ (fun best t hbest => Prevails.fail (.inl hbest)) ?_ hmem ?_
    (by simp)
  · rintro ⟨f, id⟩
    exact .after .reserve fun offset => .unify (hT.proveAll_mild fun _ => (hk _ s (.refl s)).mild)
      .noRule
  · rintro ⟨f, id⟩ - t ht
    refine reserve_gets.yields fun offset u hu _ => ?_
    refine Yields.unify (fun v hv _ => ?_) fun _ _ => .noRule
    have hsv : s.Grown v := (ht.grown.trans hu).trans hv
    exact hT.proveAll_yields (hsv.acyclic hacyclic) fun ps w hw => (hk _ w (hsv.trans hw)).yields
  · intro t ht
    refine Prevails.after .reserve fun offset u hu => ?_
    have hkept : t.Kept u := (reserve_gets.of_success hu).2.1
    rw [Term.rename_of_ground hl, Term.rename_of_ground hg]
    refine (unify_gives hl).prevails fun v hv => ?_
    have hsv : s.Grown v := ((ht.trans hkept).trans hv).grown
    refine (proveAll_sure ?_ fun ps w hw => hk _ w (hsv.trans hw)).prevails
    simpa using hgoal.later hsv

/-! ## Derivations are found -/

/-- The theory has all standard rules. -/
def Theory.Stocked (T : Theory) : Prop := ∀ rule ∈ Rule.standard, rule ∈ T.rules

/-- The registered inclusions hold no placeholders. -/
def Registry.GroundOrder (r : Registry) : Prop :=
  ∀ f ∈ r.inclusions, f.lesser.ground = true ∧ f.greater.ground = true

/-- The last step of a derivation is made by a standard rule, which leaves goals that have smaller
derivations. -/
theorem Included.exists_rule (hT : T.Library) (hreg : T.registry.GroundOrder)
    (h : Included T.registry n lesser greater) (hl : lesser.ground = true)
    (hg : greater.ground = true) :
    ∃ rule ∈ Rule.standard, rule.pattern = .subrel ∧
      ∀ (ρ : Type) (room : Nat) (k : Proof → Search ρ) (s : State), s.subst.Acyclic →
        (∀ j < n, ∀ a b, a.ground = true → b.ground = true → Included T.registry j a b →
          Assured T ρ (solve T room) s (.subrel a b)) →
        (∀ p t, s.Grown t → Sure T (k p) t) →
        Prevails T (applyRule T (solve T room) (.subrel lesser greater) k rule) s := by
  have hseen : ∀ {t : Term} (_ : t.ground = true) {σ : Subst}, σ.view t = t.view :=
    fun ht _ => (Term.leaves_of_ground ht _).view_eq
  cases h with
  | same h =>
    refine ⟨⟨"subrel_refl", Rule.order, .subrel, .subrelRefl⟩, by simp [Rule.standard], rfl,
      fun ρ room k s _ _ hk => ?_⟩
    refine applyRule_prevails (fun _ => rfl) (subrelRefl_gives ?_) (by simp) hk
    rw [hseen hl, hseen hg, h]
  | extreme h =>
    refine ⟨⟨"subrel_extremes", Rule.order, .subrel, .subrelExtremes⟩, by simp [Rule.standard], rfl,
      fun ρ room k s _ _ hk => ?_⟩
    refine applyRule_prevails (fun _ => rfl) (subrelExtremes_gives ?_) (by simp) hk
    rwa [hseen hl, hseen hg]
  | @through j _ f hf h =>
    refine ⟨⟨"subrel_trans", Rule.order + 9, .subrel, .subrelTrans⟩, by simp [Rule.standard], rfl,
      fun ρ room k s hacyclic hsmaller hk => ?_⟩
    refine subrelTrans_prevails hT hacyclic rfl hf hl (hreg f hf).2 ?_ hk
    exact hsmaller j (by omega) _ _ (hreg f hf).2 hg h
  | @arrow j _ _ a b a' b' hlv hgv hdom hcod =>
    refine ⟨⟨"subrel_structural", Rule.order + 2, .subrel, .subrelStructural⟩,
      by simp [Rule.standard], rfl, fun ρ room k s _ hsmaller hk => ?_⟩
    have hparts : ∀ {x : Term}, x ∈ [a, b] → x.ground = true := fun hx =>
      Term.ground_of_mem_view hl (by simpa [hlv, View.parts] using hx)
    have hparts' : ∀ {x : Term}, x ∈ [a', b'] → x.ground = true := fun hx =>
      Term.ground_of_mem_view hg (by simpa [hgv, View.parts] using hx)
    refine applyRule_prevails (fun _ => rfl) (subrelStructural_gives_arrow
      ((hseen hl).trans hlv) ((hseen hg).trans hgv)) ?_ hk
    refine List.forall_mem_cons.2 ⟨?_, List.forall_mem_singleton.2 ?_⟩
    · exact hsmaller j (by omega) _ _ (hparts' (by simp)) (hparts (by simp)) hdom
    · exact hsmaller j (by omega) _ _ (hparts (by simp)) (hparts' (by simp)) hcod
  | @flip j _ _ a b hlv hgv h =>
    refine ⟨⟨"subrel_structural", Rule.order + 2, .subrel, .subrelStructural⟩,
      by simp [Rule.standard], rfl, fun ρ room k s _ hsmaller hk => ?_⟩
    refine applyRule_prevails (fun _ => rfl) (subrelStructural_gives_flip
      ((hseen hl).trans hlv) ((hseen hg).trans hgv)) (List.forall_mem_singleton.2 ?_) hk
    refine hsmaller j (by omega) _ _ ?_ ?_ h
    · exact Term.ground_of_mem_view hl (by simp [hlv, View.parts])
    · exact Term.ground_of_mem_view hg (by simp [hgv, View.parts])
  | @named j _ _ head xs ys variances hlv hgv hlen hv hlen' hagree hargs =>
    refine ⟨⟨"subrel_structural", Rule.order + 2, .subrel, .subrelStructural⟩,
      by simp [Rule.standard], rfl, fun ρ room k s _ hsmaller hk => ?_⟩
    have harguments : ∀ a b v, (a, b, v) ∈ xs.zip (ys.zip variances) →
        a.ground = true ∧ b.ground = true := by
      intro a b v hmem
      obtain ⟨ha, hbv⟩ := List.of_mem_zip hmem
      exact ⟨Term.ground_of_mem_view hl (by simpa [hlv, View.parts] using ha),
        Term.ground_of_mem_view hg (by simpa [hgv, View.parts] using (List.of_mem_zip hbv).1)⟩
    refine applyRule_prevails (fun _ => rfl) (subrelStructural_gives_named
      ((hseen hl).trans hlv) ((hseen hg).trans hgv) hlen hv hlen' ?_) ?_ hk
    · exact fun a b hab => ⟨hagree a b hab, (harguments a b _ hab).1⟩
    · intro g hmem
      obtain ⟨a, b, v, hab, rfl | rfl⟩ := exists_of_mem_argumentGoals hmem
      · exact hsmaller j (by omega) _ _ (harguments a b v hab).1 (harguments a b v hab).2
          (hargs _ _ hmem)
      · exact hsmaller j (by omega) _ _ (harguments a b v hab).2 (harguments a b v hab).1
          (hargs _ _ hmem)

/-- An inclusion that has a derivation is proved, unless a limit stops the search, if no goal in
progress has a derivation of that height. -/
theorem Included.sure (hT : T.Library) (hrules : T.Stocked) (hreg : T.registry.GroundOrder)
    (h : Included T.registry n lesser greater) (hl : lesser.ground = true)
    (hg : greater.ground = true) (hacyclic : s.subst.Acyclic)
    (hfree : ∀ l g, .subrel l g ∈ s.active → ¬ Included T.registry n l g)
    (hk : ∀ p t, s.Grown t → Sure T (k p) t) :
    Sure T (solve T room ρ (.subrel lesser greater) k) s := by
  induction n using Nat.strong_induction_on generalizing lesser greater s k room with
  | _ n ih =>
  by_cases hless : ∃ j < n, Included T.registry j lesser greater
  · obtain ⟨j, hj, hless⟩ := hless
    exact ih j hj hless hl hg hacyclic (fun l g hlg hj' => hfree l g hlg (hj'.mono hj.le)) hk
  · -- the derivation is of least height, so the goals that it leaves do not come back to it
    obtain ⟨rule, hrule, hpattern, happly⟩ := h.exists_rule hT hreg hl hg
    have hgoal : (Goal.subrel lesser greater).resolve s.subst = .subrel lesser greater := by
      simp only [Goal.resolve, Goal.map, (Term.leaves_of_ground hl _).resolve_eq,
        (Term.leaves_of_ground hg _).resolve_eq]
    refine solve_sure hT hacyclic (hrules rule hrule) hgoal (fun hmem => hfree _ _ hmem h)
      (by rw [hpattern]; rfl) hk fun room k' t ht hk' => ?_
    have hacyclic' := ht.grown.acyclic hacyclic
    refine happly ρ room k' t hacyclic' (fun j hj a b ha hb hab k'' u hu hk'' => ?_) hk'
    have hactive : u.active = .subrel lesser greater :: s.active := hu.active.trans ht.active
    refine ih j hj hab ha hb (hu.acyclic hacyclic') (fun l g hlg => ?_) hk''
    rcases List.mem_cons.1 (hactive ▸ hlg) with heq | hlg
    · cases heq
      exact fun hj' => hless ⟨j, hj, hj'⟩
    · exact fun hj' => hfree l g hlg (hj'.mono hj.le)

end Monotonicity
