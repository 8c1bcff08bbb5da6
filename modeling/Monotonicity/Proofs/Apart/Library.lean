import Monotonicity.Proofs.Apart.Candidate
import Monotonicity.Proofs.Calculus.Replay
import Monotonicity.Proofs.Steady.Transport

/-!
# The solver of a library keeps placeholders apart

The rules of a library keep placeholders apart if every fact and inclusion is renamed to a block
that has room for it, and if what is used without being renamed has no placeholder. Then the solver
does, and a transport does too.
-/

namespace Monotonicity

open Search

variable {T : Theory} {ρ : Type} {s t : State} {goal : Goal} {prove prove' : Prover}

/-! ## The solver -/

namespace Search

/-- A prover that is tested when it takes up a goal and when it hands on a proof: the state has to
be apart, and the placeholders of the goal and of the proof's name have to have been given out.
Where a test fails an alarm is raised, which may be any search whatever. -/
noncomputable def tested (alarm : (ρ : Type) → Search ρ) (prove : Prover) : Prover :=
  fun ρ goal k =>
    expect (fun s => s.Apart ∧ goal.Over s.used) (alarm ρ) <| prove ρ goal fun p =>
      expect (fun t => t.Apart ∧ p.Over t.used) (alarm ρ) (k p)

/-- The solver with a test at every call for a goal. -/
noncomputable def solveTested (T : Theory) (alarm : (ρ : Type) → Search ρ) : Nat → Prover
  | 0 => tested alarm fun _ _ _ => exhausted
  | room + 1 => tested alarm fun _ goal k => do
    if T.spent (← ledger) then exhausted
    else solveResolved T (solveTested T alarm room) (goal.resolve (← subst)) k

end Search

namespace Prover.KeepsApart

variable {k k' : Proof → Search ρ} {rule : Rule} {rules : List Rule}

theorem tested (hprove : prove.KeepsApart prove') (alarm : (ρ : Type) → Search ρ) :
    prove.KeepsApart (tested alarm prove') := by
  intro ρ goal k k' s hs hgoal hk
  refine .expect ⟨hs, hgoal⟩ (hprove hs hgoal fun p t ht hp => ?_)
  exact .expect ⟨ht.apart, hp⟩ (hk p t ht hp)

theorem applyRule (hprove : prove.KeepsApart prove') (hrule : rule.method.KeepsApart T)
    (hs : s.Apart) (hgoal : goal.Over s.used)
    (hk : ∀ p t, s.Leads t → p.Over t.used → (k p).KeepsApart (k' p) t) :
    (applyRule T prove goal k rule).KeepsApart (Search.applyRule T prove' goal k' rule) s :=
  hrule hprove hs hgoal fun _ _ ht hr => hprove.proveAll ht.apart hr.subgoals hr.premises
    fun _ u hu hps => hk _ u (ht.trans hu) (Proof.over_step hps)

theorem tryRules (hprove : prove.KeepsApart prove')
    (hrules : ∀ rule ∈ rules, rule.method.KeepsApart T) {best : Option Failure} (hs : s.Leads t)
    (hgoal : goal.Over s.used)
    (hk : ∀ p t, s.Leads t → p.Over t.used → (k p).KeepsApart (k' p) t) :
    (tryRules T prove goal k rules best).KeepsApart
      (Search.tryRules T prove' goal k' rules best) t := by
  induction rules generalizing t best with
  | nil => exact .failBest hs.apart (.noRule hs.apart)
  | cons rule rules ih =>
    rw [List.forall_mem_cons] at hrules
    refine .subst (.ite (fun _ => .ledger (.ite (fun _ => .exhausted hs.apart)
      fun _ => ?_)) fun _ => ih hrules.2 hs)
    -- the application is counted, tried, taken back if it fails, and counted again
    refine (Search.KeepsApart.count hs.apart).bind fun _ u hu _ => ?_
    have hsu := hs.trans hu
    have htry := hprove.applyRule hrules.1 hu.apart (hgoal.mono hsu.used)
      fun p v hv => hk p v (hsu.trans hv)
    refine htry.attempt.recover fun why v hv => ?_
    refine (Search.KeepsApart.count hv.apart).bind fun _ w hw _ => ?_
    exact .unlessSpent hw.apart (ih hrules.2 ((hsu.trans hv).trans hw))

theorem solveResolved (hprove : prove.KeepsApart prove')
    (hrules : ∀ rule ∈ T.rules, rule.method.KeepsApart T) (hs : s.Apart) (hgoal : goal.Over s.used)
    (hk : ∀ p t, s.Leads t → p.Over t.used → (k p).KeepsApart (k' p) t) :
    (solveResolved T prove goal k).KeepsApart (Search.solveResolved T prove' goal k') s := by
  refine .active (.ite (fun _ => .fail hs) fun _ => .inside hs hgoal fun t ht => ?_)
  refine hprove.tryRules hrules ht.apart.leads (hgoal.mono ht.used) fun p u hu hp => ?_
  exact .outside hu.apart (hgoal.mono (ht.trans hu).used)
    (hk p u.leave (ht.trans ⟨hu.le, hu.apart.leave⟩) hp)

theorem solve (hrules : ∀ rule ∈ T.rules, rule.method.KeepsApart T)
    (alarm : (ρ : Type) → Search ρ) (room : Nat) :
    Prover.KeepsApart (solve T room) (solveTested T alarm room) := by
  induction room with
  | zero =>
    have hstop : Prover.KeepsApart (Search.solve T 0) fun _ _ _ => exhausted :=
      fun _ _ _ _ _ hs _ _ => .exhausted hs
    exact hstop.tested alarm
  | succ room ih =>
    have hstep : Prover.KeepsApart (Search.solve T (room + 1)) (fun _ goal k => do
        if T.spent (← ledger) then exhausted
        else Search.solveResolved T (solveTested T alarm room) (goal.resolve (← subst)) k) := by
      intro ρ goal k k' s hs hgoal hk
      refine .ledger (.ite (fun _ => .exhausted hs) fun _ => .subst ?_)
      exact ih.solveResolved hrules hs (hgoal.resolve hs.only.subst.within) hk
    exact hstep.tested alarm

end Prover.KeepsApart

/-- All methods of a library's rules keep placeholders apart. -/
theorem Theory.Library.keepsApart (h : T.Library) (hT : T.Over fun _ => False)
    (hR : T.registry.Bounded) : ∀ rule ∈ T.rules, rule.method.KeepsApart T := by
  intro rule hrule
  rcases h rule hrule with hstandard | ⟨r, rfl⟩
  · simp only [Rule.standard, List.mem_cons, List.not_mem_nil, or_false] at hstandard
    rcases hstandard with rfl | rfl | rfl | rfl | rfl | rfl | rfl | rfl | rfl | rfl | rfl | rfl |
      rfl | rfl | rfl | rfl | rfl | rfl
    · exact .top
    · exact .eqRefl
    · exact .flipIntro
    · exact .arrowIntro
    · exact .dependentIntro
    · exact .casesReduce
    · exact .subrelRefl
    · exact .subrelExtremes
    · exact .subrelFact hR
    · exact .subrelStructural
    · exact .subrelTrans hR
    · exact .destruct hT
    · exact .monotone hR .left
    · exact .monotone hR .right
    · exact .eqCongruence
    · exact .eqUnify
    · exact .reflPlaceholder
    · exact .deferUnsolved
  · exact .relatorIntro hT

/-! ## Transport -/

namespace Search.KeepsApart

theorem blocked {α : Type} {o : Obstacle} {Q : α → State → Prop} (hs : s.Apart) :
    (blocked o : Search α).KeepsApart (Search.blocked o) s Q := fail hs

theorem renamed {f : Fact} (hs : s.Apart) (hf : f.Over (· < f.schematic)) :
    (renamed f).KeepsApart (Search.renamed f) s fun f t => f.Over t.used := by
  refine (reserve hs).bind fun first t ht hfirst => pure ht.apart ?_
  exact (hf.rename first).mono fun i hi => hi.used hfirst.next.ge

theorem bridgeEdge (hprove : prove.KeepsApart prove') {found wanted : Term}
    {k k' : Option Proof → Search ρ} (hs : s.Apart) (hfound : found.Over s.used)
    (hwanted : wanted.Over s.used)
    (hk : ∀ p t, s.Leads t → (∀ q ∈ p, Proof.Over t.used q) → (k p).KeepsApart (k' p) t) :
    (bridgeEdge prove found wanted k).KeepsApart
      (Search.bridgeEdge prove' found wanted k') s := by
  refine ifUnify hs hfound hwanted (fun t ht => hk none t ht (by simp)) fun t ht => ?_
  refine hprove.bridging ht.apart
    (Goal.over_subrel.2 ⟨hfound.mono ht.used, hwanted.mono ht.used⟩) (fun p u hu hp => ?_)
    fun crossed why u hu => ite (fun _ => fail hu.apart) fun _ => gap hu.apart
  exact hk (some p) u (ht.trans hu) (by simpa using hp)

theorem fieldObligations {V : Nat → Prop} {relation : Term} {args : List Term}
    {fields : List (FieldRel × Term × Term)} (hs : s.Apart)
    (hfields : ∀ field x y rel, (field, x, y) ∈ fields → field.relation? relation args = some rel →
      (Goal.related rel x y).Over V) :
    (fieldObligations relation args fields).KeepsApart
      (Search.fieldObligations relation args fields) s fun goals _ => ∀ g ∈ goals, g.Over V := by
  induction fields with
  | nil => exact pure hs (by simp)
  | cons f fields ih =>
    obtain ⟨field, x, y⟩ := f
    refine require (blocked hs) fun rel hrel => ?_
    refine (ih fun field x y rel hmem => hfields field x y rel (List.mem_cons_of_mem _ hmem)).bind
      fun goals t ht hgoals => pure ht.apart (List.forall_mem_cons.2 ⟨?_, hgoals⟩)
    exact hfields field x y rel List.mem_cons_self hrel

theorem derivedSide {term left right : Term} (hs : s.Apart) (hterm : term.Over s.used)
    (hleft : left.Over s.used) (hright : right.Over s.used) :
    (derivedSide term left right).KeepsApart (Search.derivedSide term left right) s := by
  refine ifUnify hs hterm hright (fun t ht => pure ht.apart trivial) fun t ht => ?_
  exact ifUnify ht.apart (hterm.mono ht.used) (hleft.mono ht.used)
    (fun u hu => pure hu.apart trivial) fun u hu => blocked hu.apart

theorem plan (hT : T.Over fun _ => False) {lifted edge : Fact} {result : Subst → Option Term}
    {c : Computation} (hs : s.Apart) (hlifted : lifted.Over s.used) (hedge : edge.Over s.used)
    (hterm : c.term.Over s.used) (hvalue : c.value.Over s.used)
    (hresult : ∀ t r, s.Leads t → result t.subst = some r → r.Over t.used) :
    (plan T lifted edge result c).KeepsApart (Search.plan T lifted edge result c) s
      fun p t => ∀ g ∈ p.obligations, g.Over t.used := by
  refine subst (require (blocked hs) fun left hleft => require (blocked hs) fun right hright => ?_)
  have hleft := (hs.walk hlifted.left).extend? (by simpa using hedge.left) hleft
  have hright := (hs.walk hlifted.right).extend? (by simpa using hedge.right) hright
  refine (derivedSide hs hterm hleft hright).bind fun derived t ht _ => ?_
  refine subst (require (blocked ht.apart) fun relation hrelation => subst ?_)
  have hrelation := hresult t relation ht hrelation
  cases hview : t.subst.view relation with
  | named head args =>
    have hargs : ∀ x ∈ args, x.Over t.used := fun x hx =>
      ht.apart.view hrelation hview (by simpa [View.parts] using hx)
    refine require (blocked ht.apart) fun scheme hscheme => subst ?_
    have hknown := ht.apart.walk (hvalue.mono ht.used)
    cases hwalk : t.subst.walk c.value with
    | app ctor known =>
      rw [hwalk, Term.over_app] at hknown
      refine require (blocked ht.apart) fun pair hpair => ?_
      have hfixed : ∀ rel : Term, .fixed rel ∈ pair.fields → ∀ V, rel.Over V := fun rel hrel V =>
        (hT.fixed head scheme hscheme pair (mem_of_pick hpair) rel hrel).mono fun _ h => h.elim
      refine (freshVars ht.apart).bind fun unknown u hu hunknown => subst ?_
      have hobligations : ∀ v, u.Leads v → (Search.fieldObligations relation args (pair.fields.zip
          (derived.pick (unknown.zip known) (known.zip unknown)))).KeepsApart
          (Search.fieldObligations relation args (pair.fields.zip
            (derived.pick (unknown.zip known) (known.zip unknown)))) v
          fun goals _ => ∀ g ∈ goals, g.Over u.used := by
        refine fun v hv => fieldObligations hv.apart fun field x y rel hmem hrel => ?_
        exact over_of_mem_pick (hrelation.mono hu.used) (fun x hx => (hargs x hx).mono hu.used)
          (fun rel hrel => hfixed rel hrel _) hunknown (fun x hx => (hknown x hx).mono hu.used) hmem
          hrel
      dsimp only
      cases hcomputed : T.registry.computations.get?
          (u.subst.resolve (derived.pick left right)) with
      | none =>
        refine (hobligations u hu.apart.leads).bind fun goals v hv hgoals => pure hv.apart ?_
        exact fun g hg => (hgoals g hg).mono hv.used
      | some computed =>
        have hcomputed := (hT.computed _ computed hcomputed).mono (W := u.used) fun _ h => h.elim
        refine (unify hu.apart (Term.over_app.2 hunknown) hcomputed).bind fun same v hv _ => ?_
        cases same with
        | false => exact blocked hv.apart
        | true =>
          refine (hobligations v hv).bind fun goals w hw hgoals => pure hw.apart ?_
          exact fun g hg => (hgoals g hg).mono (hv.trans hw).used
    | _ => exact blocked ht.apart
  | _ => exact blocked ht.apart

theorem discharge (hprove : prove.KeepsApart prove') {k k' : List Proof → Search ρ}
    {goals : List Goal} {done : List Proof} (hs : s.Apart) (hgoals : ∀ g ∈ goals, g.Over s.used)
    (hdone : ∀ p ∈ done, p.Over s.used)
    (hk : ∀ ps t, s.Leads t → (∀ p ∈ ps, p.Over t.used) → (k ps).KeepsApart (k' ps) t) :
    (discharge prove k goals done).KeepsApart (Search.discharge prove' k' goals done) s := by
  induction goals generalizing s done with
  | nil => exact hk done s hs.leads hdone
  | cons goal goals ih =>
    rw [List.forall_mem_cons] at hgoals
    have hrest : ∀ p t, s.Leads t → p.Over t.used →
        (Search.discharge prove k goals (done ++ [p])).KeepsApart
          (Search.discharge prove' k' goals (done ++ [p])) t := by
      refine fun p t ht hp => ih ht.apart (fun g hg => (hgoals.2 g hg).mono ht.used) ?_
        fun ps u hu => hk ps u (ht.trans hu)
      exact List.forall_mem_append.2 ⟨fun q hq => (hdone q hq).mono ht.used, by simpa using hp⟩
    refine (hprove hs hgoals.1 hrest).attempt.recover fun why t ht => ?_
    refine ite (fun _ => fail ht.apart) fun _ => ?_
    exact (defer ht.apart (hgoals.1.mono ht.used)).bind fun p u hu hp => hrest p u (ht.trans hu) hp

theorem arrive {bound : Nat} {p : Plan} {premises : List Proof} (hs : s.Apart) :
    (arrive bound p premises).KeepsApart (Search.arrive bound p premises) s :=
  quiet ⟨hs, trivial⟩ rfl rfl

/-- From the edge to the end, for facts that are renamed already. -/
theorem carry (hT : T.Over fun _ => False) (hprove : prove.KeepsApart prove') {bound : Nat}
    {lifted edge : Fact} {expected : Term} {result : Subst → Option Term} {c : Computation}
    {facts : List Proof} (hs : s.Apart) (hlifted : lifted.Over s.used) (hedge : edge.Over s.used)
    (hterm : c.term.Over s.used) (hvalue : c.value.Over s.used) (hexpected : expected.Over s.used)
    (hresult : ∀ t r, s.Leads t → result t.subst = some r → r.Over t.used)
    (hfacts : ∀ p ∈ facts, p.Over s.used) :
    (Search.bridgeEdge prove edge.rel expected fun bridged => do
        let p ← Search.plan T lifted edge result c
        Search.discharge prove (Search.arrive bound p) p.obligations
          (facts ++ bridged.toList)).KeepsApart
      (Search.bridgeEdge prove' edge.rel expected fun bridged => do
        let p ← Search.plan T lifted edge result c
        Search.discharge prove' (Search.arrive bound p) p.obligations
          (facts ++ bridged.toList)) s := by
  refine bridgeEdge hprove hs hedge.rel hexpected fun bridged t ht hbridged => ?_
  refine (plan hT ht.apart (hlifted.mono ht.used) (hedge.mono ht.used) (hterm.mono ht.used)
    (hvalue.mono ht.used) fun u r hu => hresult u r (ht.trans hu)).bind fun p u hu hp => ?_
  refine discharge hprove hu.apart hp ?_ fun ps v hv _ => arrive hv.apart
  refine List.forall_mem_append.2
    ⟨fun q hq => (hfacts q hq).mono (ht.trans hu).used, fun q hq => ?_⟩
  exact (hbridged q (by simpa using hq)).mono hu.used

theorem transport (hT : T.Over fun _ => False) (hprove : prove.KeepsApart prove')
    {bound liftedId edgeId : Nat} {lifted edge : Fact} {c : Computation} (hs : s.Apart)
    (hlifted : lifted.Over (· < lifted.schematic)) (hedge : edge.Over (· < edge.schematic))
    (hterm : c.term.Over s.used) (hvalue : c.value.Over s.used) :
    (transport T prove bound liftedId edgeId lifted edge c).KeepsApart
      (Search.transport T prove' bound liftedId edgeId lifted edge c) s := by
  refine (renamed hs hlifted).bind fun lifted t₁ h₁ hlifted =>
    (renamed h₁.apart hedge).bind fun edge t h₂ hedge => ?_
  have hst := h₁.trans h₂
  have ht := hst.apart
  have hlifted := hlifted.mono h₂.used
  have hfacts : ∀ p ∈ [Proof.fact liftedId lifted.witness, .fact edgeId edge.witness],
      p.Over t.used := by
    simpa [Proof.Over, Proof.witness?] using ⟨hlifted.witness, hedge.witness⟩
  refine subst ?_
  cases hview : t.subst.view lifted.rel with
  | dependent e family =>
    have he := ht.view hlifted.rel hview (u := e) (by simp [View.parts])
    have hfamily := ht.view hlifted.rel hview (u := family) (by simp [View.parts])
    refine carry hT hprove ht hlifted hedge (hterm.mono hst.used) (hvalue.mono hst.used) he
      (fun u r hu hr => ?_) hfacts
    have hedge := hedge.mono hu.used
    exact hu.apart.only.subst.within.family? (hfamily.mono hu.used) hedge.left hedge.right
      hedge.witness hr
  | arrow e cod =>
    have he := ht.view hlifted.rel hview (u := e) (by simp [View.parts])
    have hcod := ht.view hlifted.rel hview (u := cod) (by simp [View.parts])
    refine carry hT hprove ht hlifted hedge (hterm.mono hst.used) (hvalue.mono hst.used) he
      (fun u r hu hr => ?_) hfacts
    cases hr
    exact hcod.mono hu.used
  | _ => exact blocked ht

end Search.KeepsApart

end Monotonicity
