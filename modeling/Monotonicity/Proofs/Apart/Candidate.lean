import Monotonicity.Proofs.Apart.Rules
import Monotonicity.Proofs.Calculus.Candidate

/-!
# The use of facts and hypotheses keeps placeholders apart

A look-up renames every fact that it proposes to a block of its own, so that no two of its facts
have a placeholder in common, and none has one that was there before. From there on a candidate is
lined up with the goal, its arguments are eliminated and its relation is bridged to the goal's with
what is at hand and with new placeholders.
-/

namespace Monotonicity

open Search

variable {T : Theory} {ρ : Type} {V W : Nat → Prop} {s t : State} {goal : Goal}
  {prove prove' : Prover}

/-! ## Looking up -/

/-- The placeholders of a candidate. -/
def Candidate.vars (c : Candidate) : List Nat :=
  [c.rel, c.left, c.right, c.witness].flatMap Term.vars

/-- Only placeholders of the set occur in the candidate. -/
def Candidate.Over (V : Nat → Prop) (c : Candidate) : Prop := ∀ i ∈ c.vars, V i

/-- A candidate that is a fact renamed to a block, which was set aside after one index had been
reached and before another one was. -/
inductive Candidate.Renamed (T : Theory) (lo hi : Nat) : Candidate → Prop
  | fact {id first consumed : Nat} {f : Fact} (hfact : T.registry.facts[id]? = some f)
    (hlo : lo ≤ first) (hhi : first + f.schematic ≤ hi) (hindex : first + f.schematic < indexBound)
    (hblock : (f.rename first).Over (Block first f.schematic)) :
    Renamed T lo hi ⟨.fact id, (f.rename first).rel, (f.rename first).left,
      (f.rename first).right, (f.rename first).witness, consumed⟩

/-- Facts among the candidates are renamed to blocks that were set aside between two indices, no two
to the same. -/
structure RenamedApart (T : Theory) (lo hi : Nat) (cs : List Candidate) : Prop where
  renamed : ∀ c ∈ cs, c.Renamed T lo hi
  disjoint : cs.Pairwise fun c d => c.vars.Disjoint d.vars

namespace Candidate

variable {c d : Candidate} {lo mid hi : Nat}

theorem over_iff : c.Over V ↔
    c.rel.Over V ∧ c.left.Over V ∧ c.right.Over V ∧ c.witness.Over V := by
  simp [Over, vars, Term.Over, or_imp, forall_and]

theorem Over.mono (h : c.Over V) (hVW : ∀ i, V i → W i) : c.Over W := fun i hi => hVW i (h i hi)

theorem Renamed.over (h : c.Renamed T lo hi) : c.Over fun i => lo ≤ i ∧ i < hi := by
  cases h with
  | fact hfact hlo hhi hindex hblock =>
    have hover := hblock.mono (W := fun i => lo ≤ i ∧ i < hi) fun i hi =>
      ⟨Nat.le_trans hlo hi.1, Nat.lt_of_lt_of_le hi.2 hhi⟩
    exact over_iff.2 ⟨hover.rel, hover.left, hover.right, hover.witness⟩

theorem Renamed.mono {lo' hi' : Nat} (h : c.Renamed T lo hi) (hlo : lo' ≤ lo) (hhi : hi ≤ hi') :
    c.Renamed T lo' hi' := by
  cases h with
  | fact hfact hl hh hindex hblock =>
    exact .fact hfact (Nat.le_trans hlo hl) (Nat.le_trans hh hhi) hindex hblock

theorem Renamed.disjoint (h : c.Renamed T lo mid) (h' : d.Renamed T mid hi) :
    c.vars.Disjoint d.vars := by
  intro i hc hd
  have hlt := (h.over i hc).2
  have hle := (h'.over i hd).1
  omega

theorem insert_perm (cs : List Candidate) : (insert c cs).Perm (c :: cs) := by
  induction cs with
  | nil => exact .refl _
  | cons d rest ih =>
    unfold insert
    split
    · exact .refl _
    · exact (ih.cons d).trans (.swap ..)

end Candidate

theorem Batch.arrange_perm (batch : Batch) (cs : List Candidate) : (batch.arrange cs).Perm cs := by
  cases batch with
  | exact k => exact .refl _
  | parameters p k =>
    induction cs with
    | nil => exact .refl _
    | cons c cs ih => exact (Candidate.insert_perm _).trans (ih.cons c)

theorem RenamedApart.perm {cs ds : List Candidate} {lo hi : Nat} (h : RenamedApart T lo hi cs)
    (hperm : ds.Perm cs) : RenamedApart T lo hi ds where
  renamed c hc := h.renamed c (hperm.mem_iff.1 hc)
  disjoint := by
    refine (hperm.pairwise_iff fun hcd => ?_).2 h.disjoint
    exact fun _ hd hc => hcd hc hd

theorem exists_of_mem_hypothesisCandidates {σ : Subst} {side : Side} {head : String} {batch : Batch}
    {hyps : List Hypothesis} {c : Candidate}
    (h : c ∈ hypothesisCandidates σ side head batch hyps) :
    ∃ i x n, x ∈ hyps ∧ c = ⟨.hypothesis i, x.rel, x.left, x.right, x.witness, n⟩ := by
  obtain ⟨⟨x, i⟩, hmem, hc⟩ := List.mem_filterMap.1 h
  dsimp only at hc
  split at hc
  · split at hc
    · cases hc
      exact ⟨i, x, _, List.fst_mem_of_mem_zipIdx hmem, rfl⟩
    · cases hc
  · cases hc

/-- Only placeholders of the set occur in the relation reached, in the names of the proofs used and
in what is owed. -/
structure Search.Elimination.Over (V : Nat → Prop) (e : Elimination) : Prop where
  rel : e.rel.Over V
  premises : ∀ p ∈ e.premises, p.Over V
  subgoals : ∀ g ∈ e.subgoals, g.Over V

namespace Search.Elimination.Over

variable {e : Elimination} {rel : Term}

theorem mono (h : e.Over V) (hVW : ∀ i, V i → W i) : e.Over W :=
  ⟨h.rel.mono hVW, fun p hp => (h.premises p hp).mono hVW,
    fun g hg => (h.subgoals g hg).mono hVW⟩

theorem turn (h : e.Over V) (hrel : rel.Over V) : Elimination.Over V { e with rel := rel } :=
  ⟨hrel, h.premises, h.subgoals⟩

theorem owing (h : e.Over V) (hrel : rel.Over V) (hgoal : goal.Over V) :
    (e.owing rel goal).Over V :=
  ⟨hrel, h.premises, List.forall_mem_append.2 ⟨h.subgoals, by simpa using hgoal⟩⟩

theorem via (h : e.Over V) (hrel : rel.Over V) {p : Proof} (hp : p.Over V) : (e.via rel p).Over V :=
  ⟨hrel, List.forall_mem_append.2 ⟨h.premises, by simpa using hp⟩, h.subgoals⟩

end Search.Elimination.Over

namespace Search.KeepsApart

theorem factCandidates (hR : T.registry.Bounded) {side : Side} {batch : Batch} {ids : List Nat}
    (hs : s.Apart) :
    (factCandidates T side batch ids).KeepsApart (Search.factCandidates T side batch ids) s
      fun cs t => RenamedApart T s.ledger.nextVar t.ledger.nextVar cs := by
  induction ids generalizing s with
  | nil => exact pure hs ⟨by simp, .nil⟩
  | cons id ids ih =>
    unfold Search.factCandidates
    split
    · next fact hfact =>
      split
      · next head args hside =>
        refine ite (fun _ => ?_) fun _ => ih hs
        have hbounded := hR.facts fact (Array.mem_of_getElem? hfact)
        refine (reserve hs).bind fun first t ht hfirst => (ih ht.apart).bind fun cs u hu hcs => ?_
        have hc : Candidate.Renamed T s.ledger.nextVar t.ledger.nextVar
            ⟨.fact id, (fact.rename first).rel, (fact.rename first).left, (fact.rename first).right,
              (fact.rename first).witness, args.length⟩ :=
          .fact hfact hfirst.first_eq.ge hfirst.next.ge hfirst.index (hbounded.rename first)
        refine pure hu.apart
          ⟨List.forall_mem_cons.2 ⟨hc.mono (Nat.le_refl _) hu.le, fun d hd => ?_⟩,
            .cons (fun d hd => hc.disjoint (hcs.renamed d hd)) hcs.disjoint⟩
        exact (hcs.renamed d hd).mono ht.le (Nat.le_refl _)
      · exact ih hs
    · exact ih hs

/-- What a look-up finds: hypotheses in scope, and facts that are renamed apart. -/
theorem probe (hR : T.registry.Bounded) {side : Side} {head : String} {batch : Batch}
    (hs : s.Apart) :
    (probe T side head batch).KeepsApart (Search.probe T side head batch) s fun cs t =>
      (∀ c ∈ cs, c.Over t.used) ∧ ∃ assumed found, cs = assumed ++ found ∧
        (∀ c ∈ assumed, ∃ i, c.source = .hypothesis i) ∧
        RenamedApart T s.ledger.nextVar t.ledger.nextVar found := by
  refine (count hs).bind fun _ t ht _ => subst (hyps ?_)
  refine (factCandidates hR ht.apart).bind fun facts u hu hfacts => pure hu.apart ?_
  have hassumed : ∀ c ∈ batch.arrange (hypothesisCandidates t.subst side head batch t.hyps),
      c.Over t.used ∧ ∃ i, c.source = .hypothesis i := by
    intro c hc
    obtain ⟨i, h, n, hh, rfl⟩ := exists_of_mem_hypothesisCandidates (mem_of_mem_arrange hc)
    have hover := ht.apart.only.hyps h hh
    exact ⟨Candidate.over_iff.2 ⟨hover.rel, hover.left, hover.right, hover.witness⟩, i, rfl⟩
  have hrenamed := hfacts.perm (batch.arrange_perm facts)
  refine ⟨List.forall_mem_append.2 ⟨fun c hc => (hassumed c hc).1.mono hu.used, fun c hc => ?_⟩,
    _, _, rfl, fun c hc => (hassumed c hc).2, fun c hc => ?_, hrenamed.disjoint⟩
  · exact (hrenamed.renamed c hc).over.mono fun i hi => hi.2
  · exact (hrenamed.renamed c hc).mono ht.le (Nat.le_refl _)

/-! ## Lining a candidate up -/

theorem splitSide {side base : Term} {extra : Nat} (hs : s.Apart) (hside : side.Over s.used)
    (hbase : base.Over s.used) :
    (splitSide goal side base extra).KeepsApart (Search.splitSide goal side base extra) s
      fun xs t => ∀ x ∈ xs, x.Over t.used := by
  have hwalk := hs.walk hside
  refine subst ?_
  cases hterm : s.subst.walk side with
  | var i =>
    rw [hterm] at hwalk
    refine (freshVars hs).bind fun xs t ht hxs =>
      require (noCandidate ht.apart) fun value hvalue => ?_
    refine ifUnify ht.apart (hwalk.mono ht.used) ?_ (fun u hu => pure hu.apart fun x hx =>
      (hxs x hx).mono hu.used) fun u hu => noCandidate hu.apart
    split at hvalue
    · cases hvalue
      exact hbase.mono ht.used
    · exact ((hs.walk hbase).mono ht.used).extend? hxs hvalue
  | app head args =>
    rw [hterm, Term.over_app] at hwalk
    refine ite (fun _ => noCandidate hs) fun _ => ?_
    refine ifUnify hs ?_ hbase (fun u hu => pure hu.apart fun x hx => ?_) fun u hu =>
      noCandidate hu.apart
    · exact Term.over_app.2 fun x hx => hwalk x (List.mem_of_mem_take hx)
    · exact (hwalk x (List.mem_of_mem_drop hx)).mono hu.used
  | cases scrutinee arms => exact noCandidate hs

/-! ## Eliminating arguments -/

theorem edgeName {p : Proof} (hs : s.Apart) (hp : p.Over s.used) :
    (edgeName p).KeepsApart (Search.edgeName p) s fun name t => name.Over t.used := by
  unfold Search.edgeName
  split
  · next w hw => exact pure hs (hp w hw)
  · exact (freshConst hs).mono fun _ _ _ hname => hname _

section Elimination

variable {e : Elimination} {a b : Term} {k k' : Elimination → Search ρ}

theorem eliminateStraight (hprove : prove.KeepsApart prove') (hs : s.Apart) (he : e.Over s.used)
    (ha : a.Over s.used) (hb : b.Over s.used)
    (hk : ∀ e t, s.Leads t → e.Over t.used → (k e).KeepsApart (k' e) t) :
    (eliminateStraight prove goal e a b k).KeepsApart
      (Search.eliminateStraight prove' goal e a b k') s := by
  refine subst ?_
  cases hview : s.subst.view e.rel with
  | arrow dom cod =>
    have hdom := hs.view he.rel hview (u := dom) (by simp [View.parts])
    have hcod := hs.view he.rel hview (u := cod) (by simp [View.parts])
    exact hk _ s hs.leads (he.owing hcod (Goal.over_related.2 ⟨hdom, ha, hb⟩))
  | dependent edge family =>
    have hedge := hs.view he.rel hview (u := edge) (by simp [View.parts])
    have hfamily := hs.view he.rel hview (u := family) (by simp [View.parts])
    refine hprove hs (Goal.over_related.2 ⟨hedge, ha, hb⟩) fun p t ht hp => ?_
    refine (edgeName ht.apart hp).bind fun name u hu hname => subst ?_
    refine require (gap hu.apart) fun rel hrel => ?_
    have hsu := ht.trans hu
    have hrel := hu.apart.only.subst.within.family? (hfamily.mono hsu.used) (ha.mono hsu.used)
      (hb.mono hsu.used) hname hrel
    exact hk _ u hsu ((he.mono hsu.used).via hrel (hp.mono hu.used))
  | equality => exact hk _ s hs.leads (he.owing he.rel (Goal.over_related.2 ⟨he.rel, ha, hb⟩))
  | top => exact hk e s hs.leads he
  | placeholder i =>
    refine (freshVar hs).bind fun dom t ht hdom => (freshVar ht.apart).bind fun cod u hu hcod => ?_
    have hsu := ht.trans hu
    have hdom := hdom.mono hu.used
    refine ifUnify hu.apart (he.rel.mono hsu.used) (by simp [Term.arrow, hdom, hcod])
      (fun v hv => ?_) fun v hv => gap hv.apart
    have hsv := hsu.trans hv
    refine hk _ v hsv ((he.mono hsv.used).owing (hcod.mono hv.used) (Goal.over_related.2 ?_))
    exact ⟨hdom.mono hv.used, ha.mono hsv.used, hb.mono hsv.used⟩
  | _ => exact gap hs

theorem eliminate (hprove : prove.KeepsApart prove') (hs : s.Apart) (he : e.Over s.used)
    (ha : a.Over s.used) (hb : b.Over s.used)
    (hk : ∀ e t, s.Leads t → e.Over t.used → (k e).KeepsApart (k' e) t) :
    (eliminate prove goal e a b k).KeepsApart (Search.eliminate prove' goal e a b k') s := by
  have hstraight : (Search.eliminateStraight prove goal e a b k).KeepsApart
      (Search.eliminateStraight prove' goal e a b k') s := eliminateStraight hprove hs he ha hb hk
  refine subst ?_
  cases hview : s.subst.view e.rel with
  | flip inner =>
    have hinner := he.turn (hs.view he.rel hview (u := inner) (by simp [View.parts]))
    have hsame : (Search.eliminateStraight prove goal { e with rel := inner } a b k).KeepsApart
        (Search.eliminateStraight prove' goal { e with rel := inner } a b k') s :=
      eliminateStraight hprove hs hinner ha hb hk
    have hswap : (Search.eliminateStraight prove goal { e with rel := inner } b a fun e =>
          k { e with rel := e.rel.flip }).KeepsApart
        (Search.eliminateStraight prove' goal { e with rel := inner } b a fun e =>
          k' { e with rel := e.rel.flip }) s := by
      refine eliminateStraight hprove hs hinner hb ha fun e t ht he => hk _ t ht (he.turn ?_)
      simpa [Term.flip] using he.rel
    cases hview' : s.subst.view inner with
    | equality => simpa only [hview'] using hsame
    | top => simpa only [hview'] using hsame
    | arrow dom cod => simpa only [hview'] using hswap
    | dependent edge family => simpa only [hview'] using hswap
    | placeholder i => simpa only [hview'] using hswap
    | _ => simpa only [hview'] using gap hs
  | _ => exact hstraight

theorem eliminateAll (hprove : prove.KeepsApart prove') {pairs : List (Term × Term)}
    (hs : s.Apart) (he : e.Over s.used) (hpairs : ∀ p ∈ pairs, p.1.Over s.used ∧ p.2.Over s.used)
    (hk : ∀ e t, s.Leads t → e.Over t.used → (k e).KeepsApart (k' e) t) :
    (eliminateAll prove goal k pairs e).KeepsApart
      (Search.eliminateAll prove' goal k' pairs e) s := by
  induction pairs generalizing e s with
  | nil => exact hk e s hs.leads he
  | cons pair pairs ih =>
    obtain ⟨a, b⟩ := pair
    rw [List.forall_mem_cons] at hpairs
    refine eliminate hprove hs he hpairs.1.1 hpairs.1.2 fun e t ht he => ?_
    refine ih ht.apart he (fun p hp => ?_) fun e u hu => hk e u (ht.trans hu)
    exact ⟨(hpairs.2 p hp).1.mono ht.used, (hpairs.2 p hp).2.mono ht.used⟩

theorem bridge (hprove : prove.KeepsApart prove') {wanted : Term} (hs : s.Apart)
    (he : e.Over s.used) (hwanted : wanted.Over s.used)
    (hk : ∀ e t, s.Leads t → e.Over t.used → (k e).KeepsApart (k' e) t) :
    (bridge prove goal wanted e k).KeepsApart (Search.bridge prove' goal wanted e k') s := by
  refine subst (ite (fun _ => hk e s hs.leads he) fun _ => ?_)
  refine hprove.bridging hs (Goal.over_subrel.2 ⟨he.rel, hwanted⟩) (fun p t ht hp => ?_)
    fun crossed why t ht => ite (fun _ => fail ht.apart) fun _ => gap ht.apart
  exact hk _ t ht ((he.mono ht.used).via (hwanted.mono ht.used) hp)

end Elimination

/-! ## Monotonicity -/

variable {emit emit' : Reduction → Search ρ} {rel left right : Term} {arity : Nat}

theorem useCandidate (hprove : prove.KeepsApart prove') {c : Candidate} (hs : s.Apart)
    (hgoal : (Goal.related rel left right).Over s.used) (hc : c.Over s.used)
    (hemit : ∀ r t, s.Leads t → r.Over t.used → (emit r).KeepsApart (emit' r) t) :
    (useCandidate prove (.related rel left right) arity emit c).KeepsApart
      (Search.useCandidate prove' (.related rel left right) arity emit' c) s := by
  obtain ⟨hrel, hleft, hright⟩ := Goal.over_related.1 hgoal
  obtain ⟨hcrel, hcleft, hcright, hwitness⟩ := Candidate.over_iff.1 hc
  refine (splitSide hs hleft hcleft).bind fun xs t ht hxs => ?_
  refine (splitSide ht.apart (hright.mono ht.used) (hcright.mono ht.used)).bind
    fun ys u hu hys => ?_
  have hsu := ht.trans hu
  have hproof : c.proof.Over u.used := by
    intro w hw
    unfold Candidate.proof at hw
    split at hw <;> cases hw <;> exact hwitness.mono hsu.used
  refine eliminateAll hprove hu.apart ⟨hcrel.mono hsu.used, by simpa using hproof, by simp⟩
    (fun p hp => ?_) fun e v hv he => ?_
  · obtain ⟨hx, hy⟩ := List.of_mem_zip hp
    exact ⟨(hxs _ hx).mono hu.used, hys _ hy⟩
  · have hsv := hsu.trans hv
    exact bridge hprove hv.apart he (hrel.mono hsv.used) fun e w hw he =>
      hemit _ w (hsv.trans hw) ⟨he.premises, he.subgoals⟩

theorem tryBatches (hR : T.registry.Bounded) (hprove : prove.KeepsApart prove') {side : Side}
    {head : String} {batches : List Batch} {best : Option Failure} (hs : s.Apart)
    (hgoal : (Goal.related rel left right).Over s.used)
    (hemit : ∀ r t, s.Leads t → r.Over t.used → (emit r).KeepsApart (emit' r) t) :
    (tryBatches T prove (.related rel left right) side head arity emit batches best).KeepsApart
      (Search.tryBatches T prove' (.related rel left right) side head arity emit' batches
        best) s := by
  induction batches generalizing s best with
  | nil => exact failBest hs (noCandidate hs)
  | cons batch batches ih =>
    refine (probe hR hs).bind fun found t ht hfound => ?_
    refine tryEach ht.apart.leads (fun c hc u hu => ?_) fun best u hu => ?_
    · have hsu := ht.trans hu
      exact useCandidate hprove hu.apart (hgoal.mono hsu.used) ((hfound.1 c hc).mono hu.used)
        fun r v hv => hemit r v (hsu.trans hv)
    · have hsu := ht.trans hu
      exact ih hu.apart (hgoal.mono hsu.used) fun r v hv => hemit r v (hsu.trans hv)

end Search.KeepsApart

theorem Method.KeepsApart.monotone (hR : T.registry.Bounded) (side : Side) :
    (Method.monotone side).KeepsApart T := by
  intro prove prove' hprove ρ name goal emit emit' s hs hgoal hemit
  cases goal with
  | subrel lesser greater => exact .noRule hs
  | related rel left right =>
    refine .subst (.ite (fun _ => .noRule hs) fun _ => ?_)
    cases hwalk : s.subst.walk (side.pick left right) with
    | app head args => exact .tryBatches hR hprove hs hgoal hemit
    | _ => exact .noCandidate hs

end Monotonicity
