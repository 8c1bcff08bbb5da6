import Monotonicity.Proofs.Query.Deferral
import Monotonicity.Proofs.Transport.Plan

/-!
# What a transport returns is coherent

A transport writes down its answer when all obligations are settled, in terms that were fixed long
before: the relation and the case when the plan was made, the fields of the value when they were
still unknown. Everything in the answer is read off the bindings of the end. Here it is shown that
all parts agree there: the computation is about the one application and the value for the other, the
case of the scheme pairs the two constructors, and the proof has one premise for each field, which
proves the relation of the field or puts it off.
-/

namespace Monotonicity

open Search

variable {T : Theory} {ρ : Type} {s t : State} {S : ρ → State → Prop} {prove : Prover}

/-! ## The edge -/

theorem unify_tells {a b : Term} :
    (Search.unify a b).Gets s fun ok t => s.subst.unify a b = if ok then some t.subst else none := by
  obtain ⟨ok, t, hrun, ht, hok⟩ := unify_run a b s
  unfold Gets Ends
  rw [hrun]
  exact ⟨ht, hok⟩

/-- How the edge's relation was brought to the one expected: they were unified, or that was not
possible and an inclusion was proved. -/
inductive Search.Bridged (T : Theory) (s : State) (found wanted : Term) :
    Option Proof → State → Prop
  | unified {t : State} (h : s.subst.unify found wanted = some t.subst) :
      Bridged T s found wanted none t
  | crossed {p : Proof} {t : State} (h : s.subst.unify found wanted = none)
      (hp : Justified T s.minted s.hyps (.subrel found wanted) p t.subst t.delayed) :
      Bridged T s found wanted (some p) t

theorem bridgeEdge_yields (hprove : (replay T).Met prove) {found wanted : Term}
    {k : Option Proof → Search ρ}
    (hk : ∀ bridged t, s.Grown t → Bridged T s found wanted bridged t →
      (k bridged).Yields t S) : (bridgeEdge prove found wanted k).Yields s S := by
  refine unify_tells.yields fun ok t ht hok => ?_
  cases ok with
  | true => exact hk none t ht (.unified hok)
  | false =>
    rw [if_neg Bool.false_ne_true]
    refine bridging_yields (fun cross hcross u hu => ?_) fun crossed why u hu => ?_
    · refine Restores.yields (hprove trivial trivial fun p v hv => ?_)
      refine hcross p v fun w hw => ?_
      have hgranted := hv.from (ht.trans hu.grown)
      refine hk (some p) w (hgranted.grown.trans hw.grown) (.crossed hok ?_)
      rw [hw.subst, hw.delayed]
      exact hgranted.grants
    · split
      · exact State.Grown.refl u
      · exact State.Grown.refl u

/-! ## The plan -/

theorem fieldObligations_lists {whole : Term} {args : List Term}
    {fields : List (FieldRel × Term × Term)} :
    (fieldObligations whole args fields).Gets s fun goals t => t = s ∧
      List.Forall₂ (fun (f : FieldRel × Term × Term) g => ∃ r,
        f.1.relation? whole args = some r ∧ g = Goal.related r f.2.1 f.2.2) fields goals := by
  induction fields with
  | nil => exact .pure ⟨rfl, .nil⟩
  | cons f rest ih =>
    obtain ⟨field, x, y⟩ := f
    refine (Gets.require .blocked).bind fun r t _ h => ?_
    obtain ⟨hr, rfl⟩ := h
    refine ih.bind fun goals u _ h => .pure ?_
    exact ⟨h.1, .cons ⟨r, hr, rfl⟩ h.2⟩

/-- The plan was made at the juncture by the case, with these bindings in the end. -/
structure Search.Planned (T : Theory) (j : Juncture) (pair : CasePair) (p : Plan) (τ : Subst) :
    Prop where
  case : j.case? = some pair
  length : p.unknown.length = j.known.length
  derived : p.derived = j.derived
  value : p.value = .app (j.found pair) p.unknown
  relation : p.relation = j.relation
  summary : p.summary = .related j.relation j.left j.right
  obligations : List.Forall₂ (fun (f : FieldRel × Term × Term) g => ∃ r,
    f.1.relation? j.relation j.args = some r ∧ g = Goal.related r f.2.1 f.2.2)
    (j.fields pair p.unknown) p.obligations
  computed : ∀ v, j.computed? T = some v →
    ∀ σ : Subst, σ.Acyclic → τ ≤ σ → σ.resolve p.value = σ.resolve v

theorem settle_gets (j : Juncture) :
    (settle T j).Gets j.now fun p t => ∃ pair, Planned T j pair p t.subst := by
  refine (Gets.require .blocked).bind fun pair t _ h => ?_
  obtain ⟨hcase, rfl⟩ := h
  refine freshVars_gets.bind fun unknown u _ h => ?_
  obtain ⟨hkept, -, hlength, -⟩ := h
  refine Gets.subst ?_
  rw [hkept.subst]
  -- what is left to do once the value was compared with the registered one
  have hrest : ∀ v, (∀ w, j.computed? T = some w → ∀ σ : Subst, σ.Acyclic → v.subst ≤ σ →
        σ.resolve (.app (j.found pair) unknown) = σ.resolve w) →
      (fieldObligations j.relation j.args (j.fields pair unknown) >>= fun obligations =>
        (pure ⟨j.derived, unknown, .app (j.found pair) unknown, j.relation, obligations,
          .related j.relation j.left j.right⟩ : Search Plan)).Gets v
        fun p t => ∃ pair, Planned T j pair p t.subst := by
    refine fun v hcomputed => fieldObligations_lists.bind fun goals w _ h => .pure ?_
    obtain ⟨rfl, hgoals⟩ := h
    exact ⟨pair, hcase, hlength, rfl, rfl, rfl, rfl, hgoals, hcomputed⟩
  cases hcomputed : T.registry.computations.get? (j.now.subst.resolve j.sought) with
  | none =>
    refine hrest u fun w hw => ?_
    rw [Juncture.computed?, hcomputed] at hw
    cases hw
  | some computed =>
    refine unify_gets.bind fun ok v _ hok => ?_
    cases ok with
    | false => exact .blocked
    | true =>
      refine hrest v fun w hw σ hσ hle => ?_
      rw [Juncture.computed?, hcomputed] at hw
      cases hw
      exact (Subst.unify_gains (hok rfl)).resolve_eq hσ hle

theorem plan_gets {lifted edge : Fact} {result : Subst → Option Term} {c : Computation} :
    (plan T lifted edge result c).Gets s fun p t => ∃ j pair, Comes T lifted edge result c s j ∧
      Planned T j pair p t.subst ∧ j.now.subst ≤ t.subst := by
  unfold Gets Ends
  rcases plan_run T lifted edge result c s with ⟨o, ⟨t, ht, hrun⟩, -⟩ | ⟨j, hj, hrun⟩
  · rw [hrun]
    exact ht
  · rw [hrun]
    have hsettled := settle_gets (T := T) j
    unfold Gets Ends at hsettled
    split
    · next p t hp =>
      rw [hp] at hsettled
      obtain ⟨ht, pair, hplanned⟩ := hsettled
      exact ⟨hj.grown.trans ht, j, pair, hj, hplanned, ht.subst⟩
    · next why t hwhy =>
      rw [hwhy] at hsettled
      exact hj.grown.trans hsettled
    · trivial

/-! ## The obligations -/

/-- The proof is a derivation of the goal, or refers to it as put off. -/
def Answers (T : Theory) (σ : Subst) (w : List Pending) (n : Nat) (hyps : List Hypothesis)
    (goal : Goal) (p : Proof) : Prop :=
  Derives T σ w n hyps goal p ∨ ∃ i : Nat, p = .deferred i ∧ w[i]? = some ⟨goal, hyps⟩

/-- The proof settles the goal at all later bindings and obligations. -/
def WillAnswer (T : Theory) (n : Nat) (hyps : List Hypothesis) (goal : Goal) (p : Proof)
    (τ : Subst) (delayed : List Pending) : Prop :=
  ∀ σ w, σ.Acyclic → τ ≤ σ → delayed <+: w →
    Answers T σ (w.map (·.resolve σ)) n (hyps.map (·.resolve σ)) (goal.resolve σ) p

theorem WillAnswer.mono {n m : Nat} {hyps : List Hypothesis} {goal : Goal} {p : Proof}
    {τ υ : Subst} {d e : List Pending} (h : WillAnswer T n hyps goal p τ d) (hm : m ≤ n)
    (hle : τ ≤ υ) (hd : d <+: e) : WillAnswer T m hyps goal p υ e := by
  intro σ w hσ hυ hw
  refine (h σ w hσ (Subst.le_trans hle hυ) (hd.trans hw)).imp ?_ id
  exact fun hderives => hderives.of_le hm

/-- A goal that is put off is settled by the reference to it. -/
theorem willAnswer_deferred {n : Nat} {goal : Goal}
    (hdelayed : t.delayed = s.delayed ++ [⟨goal.resolve s.subst, s.hyps⟩])
    (hsubst : t.subst = s.subst) :
    WillAnswer T n s.hyps goal (.deferred s.delayed.length) t.subst t.delayed := by
  intro σ w hσ hle hw
  refine .inr ⟨s.delayed.length, rfl, ?_⟩
  obtain ⟨later, rfl⟩ := hw
  rw [hsubst] at hle
  simp [hdelayed, Pending.resolve, Goal.resolve_resolve hσ hle]

theorem discharge_yields (hprove : (replay T).Met prove) {k : List Proof → Search ρ}
    {goals : List Goal} {done : List Proof}
    (hk : ∀ ps t, s.Grown t →
      List.Forall₂ (fun g p => WillAnswer T s.minted s.hyps g p t.subst t.delayed) goals ps →
      (k (done ++ ps)).Yields t S) : (discharge prove k goals done).Yields s S := by
  induction goals generalizing s done with
  | nil => simpa [discharge] using hk [] s (.refl s) .nil
  | cons g goals ih =>
    -- the rest goes on from a state at which the first goal is settled
    have hrest : ∀ p t, s.Grown t → WillAnswer T s.minted s.hyps g p t.subst t.delayed →
        (discharge prove k goals (done ++ [p])).Yields t S := by
      refine fun p t ht hp => ih fun ps u hu hps => ?_
      rw [List.append_assoc]
      refine hk (p :: ps) u (ht.trans hu) (.cons (hp.mono le_rfl hu.subst hu.delayed) ?_)
      refine hps.imp fun g q hq => ?_
      rw [ht.hyps] at hq
      exact hq.mono ht.minted (Subst.le_refl _) (List.prefix_refl _)
    have hproved : (prove ρ g fun p => discharge prove k goals (done ++ [p])).Restores s S :=
      hprove trivial trivial fun p t ht => hrest p t ht.grown fun σ w hσ hle hw =>
        .inl (ht.grants σ w hσ hle hw)
    refine Ends.recover hproved.yields.attempt fun why t ht => ?_
    split
    · exact ht.grown
    · refine Yields.from (defer_gets.yields fun p u hu h => ?_) ht.grown
      obtain ⟨hsubst, rfl, hdelayed⟩ := h
      have hsettled : WillAnswer T s.minted t.hyps g (.deferred t.delayed.length) u.subst u.delayed :=
        willAnswer_deferred hdelayed hsubst
      rw [ht.hyps] at hsettled
      exact hrest _ u (ht.grown.trans hu) hsettled

/-! ## The answer -/

/-- What a transport of the fact `lifted` along the fact `edge`, both renamed apart, comes to at the
bindings `σ`, where `pair` was chosen at the juncture `j`. The proof has the premise `bridge?` for
the inclusion of the edge's relation in the expected one, if that had to be proved, and `proofs` for
the fields. New constants are numbered from `n` on. -/
structure Transported.Coherent (T : Theory) (n liftedId edgeId : Nat) (lifted edge : Fact)
    (expected : Term) (c : Computation) (σ : Subst) (r : Transported) (j : Juncture)
    (pair : CasePair) (bridge? : Option Proof) (proofs : List Proof) : Prop where
  acyclic : σ.Acyclic
  /-- The functions applied to the ends of the edge. -/
  left : (σ.resolve lifted.left).extend? [σ.resolve edge.left] = some (σ.resolve j.left)
  right : (σ.resolve lifted.right).extend? [σ.resolve edge.right] = some (σ.resolve j.right)
  derived : r.derived = j.derived
  /-- The computation is about the other side. -/
  term : σ.resolve c.term = r.derived.pick (σ.resolve j.right) (σ.resolve j.left)
  value : σ.resolve c.value = .app j.ctor (j.known.map σ.resolve)
  /-- The relation of the results has a scheme. -/
  relation : r.relation = σ.resolve j.relation
  view : r.relation.view = .named j.head (j.args.map σ.resolve)
  scheme : T.registry.schemes.get? j.head = some j.scheme
  /-- The case pairs the computed constructor with that of the value. -/
  case : pair ∈ j.scheme.cases
  computedCtor : r.derived.pick pair.right pair.left = j.ctor
  fields : pair.fields.length = j.known.length
  witnesses : r.witnesses.length = j.known.length
  found : r.value = .app (r.derived.pick pair.left pair.right) r.witnesses
  /-- It is the registered value, if there is one. -/
  computed : ∀ v, j.computed? T = some v → r.value = σ.resolve v
  goal : r.residual.goal = .related r.relation (σ.resolve j.left) (σ.resolve j.right)
  proof : r.residual.proof? = some (.step "transport"
    ([.fact liftedId lifted.witness, .fact edgeId edge.witness] ++ bridge?.toList ++ proofs))
  bridged : (∃ τ, Subst.empty.unify edge.rel expected = some τ) ∧ bridge? = none ∧
      σ.resolve edge.rel = σ.resolve expected ∨
    Subst.empty.unify edge.rel expected = none ∧ ∃ p, bridge? = some p ∧
      Derives T σ r.residual.pending n [] (.subrel (σ.resolve edge.rel) (σ.resolve expected)) p
  /-- One premise for each field, between the known fields and those found. -/
  settled : List.Forall₂ (fun (f : FieldRel × Term × Term) p => ∃ rel,
      f.1.relation? j.relation j.args = some rel ∧
      Answers T σ r.residual.pending n [] (.related (σ.resolve rel) f.2.1 f.2.2) p)
    (pair.fields.zip (r.derived.pick (r.witnesses.zip (j.known.map σ.resolve))
      ((j.known.map σ.resolve).zip r.witnesses))) proofs

section

variable {n liftedId edgeId bound : Nat} {lifted edge : Fact} {expected : Term}
  {result : Subst → Option Term} {c : Computation} {σ : Subst} {j : Juncture} {pair : CasePair}
  {p : Plan}

/-- The terms that a side was applied to are those of the end, up to values. -/
theorem extend?_later {τ : Subst} (hσ : σ.Acyclic) (hle : τ ≤ σ) {f a u : Term}
    (h : (τ.walk f).extend? [a] = some u) :
    (σ.resolve f).extend? [σ.resolve a] = some (σ.resolve u) := by
  rw [← hσ.resolve_walk hle, hσ.resolve_eq_subst, hσ.resolve_eq_subst, hσ.resolve_eq_subst]
  exact Term.extend?_subst h

theorem Juncture.of_case? (h : j.case? = some pair) :
    pair ∈ j.scheme.cases ∧ j.given pair = j.ctor ∧ pair.fields.length = j.known.length := by
  obtain ⟨hfirst, hlength⟩ := Option.filter_eq_some_iff.1 h
  have hlength : pair.fields.length = j.known.length := by simpa using hlength
  unfold given
  cases hside : j.derived with
  | left =>
    rw [hside] at hfirst
    have hctor := List.find?_some (p := fun q : CasePair => decide (q.right = j.ctor)) hfirst
    exact ⟨List.mem_of_find?_eq_some hfirst, of_decide_eq_true hctor, hlength⟩
  | right =>
    rw [hside] at hfirst
    have hctor := List.find?_some (p := fun q : CasePair => decide (q.left = j.ctor)) hfirst
    exact ⟨List.mem_of_find?_eq_some hfirst, of_decide_eq_true hctor, hlength⟩

/-- The answer that is read off a plan at its end. -/
def Plan.answer (p : Plan) (bound : Nat) (premises : List Proof) (s : State) : Transported where
  derived := p.derived
  witnesses := p.unknown.map s.subst.resolve
  value := s.subst.resolve p.value
  relation := s.subst.resolve p.relation
  residual := .ofProof p.summary bound (.step "transport" premises) s

/-- How the inclusion of the edge's relation looks in the end. -/
theorem Search.Bridged.later {found wanted : Term} {bridged : Option Proof} {u : State}
    (h : Bridged T s found wanted bridged t) (hsubst : s.subst = .empty) (hhyps : s.hyps = [])
    (hu : t.Grown u) (hσ : u.subst.Acyclic) :
    (∃ τ, Subst.empty.unify found wanted = some τ) ∧ bridged = none ∧
        u.subst.resolve found = u.subst.resolve wanted ∨
      Subst.empty.unify found wanted = none ∧ ∃ p, bridged = some p ∧
        Derives T u.subst (u.delayed.map (·.resolve u.subst)) s.minted []
          (.subrel (u.subst.resolve found) (u.subst.resolve wanted)) p := by
  cases h with
  | unified h =>
    rw [hsubst] at h
    exact .inl ⟨⟨_, h⟩, rfl, (Subst.unify_gains h).resolve_eq hσ hu.subst⟩
  | @crossed p t h hp =>
    rw [hsubst] at h
    rw [hhyps] at hp
    exact .inr ⟨h, p, rfl, hp u.subst u.delayed hσ hu.subst hu.delayed⟩

/-- The fields of both values in the end, with the proofs that settle them. -/
theorem Search.Planned.settled {τ : Subst} {w : List Pending} {proofs : List Proof}
    (h : Planned T j pair p τ)
    (hproofs : List.Forall₂ (fun g q => Answers T σ w n [] (g.resolve σ) q) p.obligations proofs) :
    List.Forall₂ (fun (f : FieldRel × Term × Term) q => ∃ rel,
        f.1.relation? j.relation j.args = some rel ∧
        Answers T σ w n [] (.related (σ.resolve rel) f.2.1 f.2.2) q)
      (pair.fields.zip (j.derived.pick ((p.unknown.map σ.resolve).zip (j.known.map σ.resolve))
        ((j.known.map σ.resolve).zip (p.unknown.map σ.resolve)))) proofs := by
  have hfields : pair.fields.zip (j.derived.pick
        ((p.unknown.map σ.resolve).zip (j.known.map σ.resolve))
        ((j.known.map σ.resolve).zip (p.unknown.map σ.resolve))) =
      (j.fields pair p.unknown).map fun f => (f.1, σ.resolve f.2.1, σ.resolve f.2.2) := by
    unfold Juncture.fields
    cases j.derived with
    | left =>
      dsimp only [Side.pick]
      rw [List.zip_map, List.zip_map_right]
      rfl
    | right =>
      dsimp only [Side.pick]
      rw [List.zip_map, List.zip_map_right]
      rfl
  rw [hfields, List.forall₂_map_left_iff]
  have hobligations := h.obligations
  generalize p.obligations = goals at hobligations hproofs
  generalize j.fields pair p.unknown = fields at hobligations ⊢
  induction hobligations generalizing proofs with
  | nil =>
    cases hproofs
    exact .nil
  | cons hg _ ih =>
    obtain ⟨rel, hrel, rfl⟩ := hg
    cases hproofs with
    | cons hq hrest => exact .cons ⟨rel, hrel, hq⟩ (ih hrest)

theorem coherent_answer {u v : State} {bridged : Option Proof} {proofs : List Proof}
    (hsubst : s.subst = .empty) (hhyps : s.hyps = [])
    (hbridged : Bridged T s edge.rel expected bridged t) (hst : s.Grown t)
    (hj : Comes T lifted edge result c t j)
    (hplanned : Planned T j pair p u.subst) (hju : j.now.subst ≤ u.subst) (htu : t.Grown u)
    (huv : u.Grown v) (hσ : v.subst.Acyclic)
    (hproofs : List.Forall₂ (fun g q => WillAnswer T u.minted u.hyps g q v.subst v.delayed)
      p.obligations proofs) :
    (p.answer bound ([.fact liftedId lifted.witness, .fact edgeId edge.witness] ++
      bridged.toList ++ proofs) v).Coherent T s.minted liftedId edgeId lifted edge expected c
      v.subst j pair bridged proofs := by
  have hle : j.now.subst ≤ v.subst := Subst.le_trans hju huv.subst
  obtain ⟨hcase, hgiven, hlength⟩ := Juncture.of_case? hplanned.case
  have hpending : (p.answer bound ([.fact liftedId lifted.witness, .fact edgeId edge.witness] ++
      bridged.toList ++ proofs) v).residual.pending = v.delayed.map (·.resolve v.subst) :=
    Solution.pending_ofProof ..
  have hview := hσ.view_later hle (t := j.relation) (by rw [hj.view]; trivial)
  rw [hj.view] at hview
  have hproofs' : List.Forall₂ (fun g q => Answers T v.subst (v.delayed.map (·.resolve v.subst))
      s.minted [] (g.resolve v.subst) q) p.obligations proofs := by
    refine hproofs.imp fun g q hq => ?_
    have hsettles := (hq.mono (hst.trans htu).minted (Subst.le_refl _) (List.prefix_refl _)) v.subst
      v.delayed hσ (Subst.le_refl _) (List.prefix_refl _)
    rwa [(hst.trans htu).hyps, hhyps] at hsettles
  exact {
    acyclic := hσ
    left := extend?_later hσ (htu.trans huv).subst hj.left
    right := extend?_later hσ (htu.trans huv).subst hj.right
    derived := hplanned.derived
    term := by
      have hterm := (derivedSide_gets.of_success hj.derived).2 v.subst hσ hle
      rw [Plan.answer, hplanned.derived, hterm]
      cases j.derived <;> rfl
    value := by
      rw [← hσ.resolve_app, ← hj.value, hσ.resolve_walk hle]
    relation := by rw [Plan.answer, hplanned.relation]
    view := by
      rw [Plan.answer, hplanned.relation]
      exact hview
    scheme := hj.scheme
    case := hcase
    computedCtor := by
      rw [Plan.answer, hplanned.derived]
      exact hgiven
    fields := hlength
    witnesses := by simp [Plan.answer, hplanned.length]
    found := by
      rw [Plan.answer, hplanned.value, hplanned.derived, hσ.resolve_app]
      rfl
    computed := fun w hw => hplanned.computed w hw v.subst hσ huv.subst
    goal := by
      rw [Plan.answer, hplanned.relation]
      exact congrArg (Goal.resolve v.subst) hplanned.summary
    proof := Solution.proof?_ofProof ..
    bridged := by
      rw [hpending]
      exact hbridged.later hsubst hhyps (htu.trans huv) hσ
    settled := by
      rw [hpending, Plan.answer, hplanned.derived]
      exact hplanned.settled hproofs' }

/-- A fact is renamed to the next unused placeholders, which are then used. -/
theorem renamed_tells {f : Fact} :
    (renamed f).Gets s fun f' t => s.Kept t ∧ t.minted = s.minted ∧
      f' = f.rename s.ledger.nextVar ∧ t.ledger.nextVar = s.ledger.nextVar + f.schematic := by
  refine reserve_tells.bind fun i t _ h => .pure ?_
  obtain ⟨hkept, hminted, rfl, hnext⟩ := h
  exact ⟨hkept, hminted, rfl, hnext⟩

/-- A search may be quoted in what is said of its successes. -/
theorem Search.Yields.recall {m : Search ρ} (h : m.Yields s S) :
    m.Yields s fun a v => S a v ∧ ∃ w, m.run s = .success a w ∧ w.bare = v := by
  unfold Yields Ends at *
  cases hrun : m.run s with
  | success a w =>
    rw [hrun] at h
    exact ⟨h, w, rfl, rfl⟩
  | failure why w =>
    rw [hrun] at h
    exact h
  | overflow l => trivial

/-- From the edge to the end, for facts that are renamed already. -/
theorem carry_yields (hprove : (replay T).Met prove) (hsubst : s.subst = .empty)
    (hhyps : s.hyps = []) :
    (bridgeEdge prove edge.rel expected
      (fromEdge T prove bound liftedId edgeId lifted edge result c)).Yields s
      fun r v => ∃ t j pair bridge? proofs, Comes T lifted edge result c t j ∧
        (∃ w, (fromEdge T prove bound liftedId edgeId lifted edge result c bridge?).run t =
          .success r w ∧ w.bare = v) ∧
        r.Coherent T s.minted liftedId edgeId lifted edge expected c v.subst j pair bridge?
          proofs := by
  refine bridgeEdge_yields hprove fun bridged t hst hbridged => ?_
  have hend : (fromEdge T prove bound liftedId edgeId lifted edge result c bridged).Yields t
      fun r v => ∃ j pair proofs, Comes T lifted edge result c t j ∧
        r.Coherent T s.minted liftedId edgeId lifted edge expected c v.subst j pair bridged
          proofs := by
    refine plan_gets.yields fun p u htu h => ?_
    obtain ⟨j, pair, hj, hplanned, hju⟩ := h
    refine discharge_yields hprove fun proofs v huv hproofs => ?_
    have hacyclic : v.subst.Acyclic := by
      refine ((hst.trans htu).trans huv).acyclic ?_
      rw [hsubst]
      exact Subst.acyclic_empty
    have hcoherent : (p.answer bound ([.fact liftedId lifted.witness, .fact edgeId edge.witness] ++
        bridged.toList ++ proofs) v).Coherent T s.minted liftedId edgeId lifted edge expected c
        v.subst j pair bridged proofs :=
      coherent_answer hsubst hhyps hbridged hst hj hplanned hju htu huv hacyclic hproofs
    exact ⟨j, pair, proofs, hj, hcoherent⟩
  refine hend.recall.mono (fun _ h => h) fun r v h => ?_
  obtain ⟨⟨j, pair, proofs, hj, hcoherent⟩, hrun⟩ := h
  exact ⟨t, j, pair, bridged, proofs, hj, hrun, hcoherent⟩

/-- The whole way, for facts that are to be renamed. -/
theorem transport_yields (hprove : (replay T).Met prove) (hsubst : s.subst = .empty)
    (hhyps : s.hyps = []) {f e : Fact} :
    (transport T prove bound liftedId edgeId f e c).Yields s fun r v =>
      ∃ expected result t j pair bridge? proofs,
        (f.rename s.ledger.nextVar).Lifts (e.rename (s.ledger.nextVar + f.schematic)) .empty
          expected result ∧
        Comes T (f.rename s.ledger.nextVar) (e.rename (s.ledger.nextVar + f.schematic)) result c t
          j ∧
        (∃ w, (fromEdge T prove bound liftedId edgeId (f.rename s.ledger.nextVar)
          (e.rename (s.ledger.nextVar + f.schematic)) result c bridge?).run t = .success r w ∧
            w.bare = v) ∧
        r.Coherent T s.minted liftedId edgeId (f.rename s.ledger.nextVar)
          (e.rename (s.ledger.nextVar + f.schematic)) expected c v.subst j pair bridge? proofs := by
  refine renamed_tells.yields fun lifted t₁ _ h₁ => renamed_tells.yields fun edge t₂ _ h₂ => ?_
  obtain ⟨hk₁, hm₁, rfl, hnext⟩ := h₁
  obtain ⟨hk₂, hm₂, rfl, -⟩ := h₂
  rw [hnext, ← hm₁, ← hm₂]
  have hkept := hk₁.trans hk₂
  have hsubst' : t₂.subst = .empty := hkept.subst.trans hsubst
  have hhyps' : t₂.hyps = [] := hkept.hyps.trans hhyps
  refine Yields.subst ?_
  rw [hsubst']
  cases h : Subst.empty.view (f.rename s.ledger.nextVar).rel with
  | dependent expected family =>
    refine (carry_yields hprove hsubst' hhyps').mono (fun _ h => h) fun r v hr => ?_
    obtain ⟨t, j, pair, bridge?, proofs, hrest⟩ := hr
    exact ⟨expected, _, t, j, pair, bridge?, proofs, .dependent h, hrest⟩
  | arrow expected cod =>
    refine (carry_yields hprove hsubst' hhyps').mono (fun _ h => h) fun r v hr => ?_
    obtain ⟨t, j, pair, bridge?, proofs, hrest⟩ := hr
    exact ⟨expected, _, t, j, pair, bridge?, proofs, .arrow h, hrest⟩
  | _ => exact State.Grown.refl t₂

end

namespace Engine

variable {E : Engine}

/-- An answer of `transport` is coherent at the last bindings. The juncture at which its case was
chosen is one that the search came to on the way to that very answer. -/
theorem transport_coherent (hE : E.theory.Library) {lifted edge : Nat} {c : Computation}
    {r : Transported} (h : (E.transport lifted edge c).1.result = .ok (.ok r)) :
    ∃ f e bound final, E.theory.registry.facts[lifted]? = some f ∧
      E.theory.registry.facts[edge]? = some e ∧ schematic? [c.term, c.value] = some bound ∧
      (Search.transport E.theory (Search.solve E.theory E.theory.limits.maxDepth) bound lifted
        edge f e c).run (E.start bound) = .success r final ∧
      ∃ expected result t j pair bridge? proofs,
        (f.rename bound).Lifts (e.rename (bound + f.schematic)) .empty expected result ∧
        Comes E.theory (f.rename bound) (e.rename (bound + f.schematic)) result c t j ∧
        (∃ w, (fromEdge E.theory (Search.solve E.theory E.theory.limits.maxDepth) bound lifted edge
          (f.rename bound) (e.rename (bound + f.schematic)) result c bridge?).run t =
            .success r w ∧ w.bare = final.bare) ∧
        r.Coherent E.theory E.symbols.minted lifted edge (f.rename bound)
          (e.rename (bound + f.schematic)) expected c final.subst j pair bridge? proofs := by
  obtain ⟨f, e, bound, final, hf, he, hbound, hrun⟩ := transport_eq_ok h
  have hcoherent :=
    (transport_yields (hE.met_replay E.theory.limits.maxDepth) rfl rfl).of_success hrun
  exact ⟨f, e, bound, final, hf, he, hbound, hrun, hcoherent⟩

/-- An engine that was told that `f` and `g` take arguments related by `le` to optional values
related by `le`, that `lt a b` and that `lt` is included in `le`, that `g b` evaluates to `Some y`,
and that `le x y`. -/
def withValue : Engine :=
  let le : Term := .const "le"
  let lt : Term := .const "lt"
  let theory := (Theory.standard {}).addRelators
  let told : Option Registry := do
    let (_, r) ← theory.registry.addFact? (.arrow le (.app "option_rel" [le])) (.const "f")
      (.const "g") (.const "fg")
    let (_, r) ← r.addFact? lt (.const "a") (.const "b") (.const "ab")
    let (_, r) ← r.addFact? le (.const "x") (.const "y") (.const "xy")
    let (_, r) ← r.addInclusion? lt le (.const "lt_le")
    return { r with
      computations := r.computations.insert (.app "g" [.const "b"]) (.app "Some" [.const "y"]) }
  { Engine.new {} with theory := { theory with registry := told.getD {} } }

/-- If `f a` evaluates to `Some x` then the value registered for `g b` is found, with a proof that
has an inclusion and a premise for the field. -/
theorem withValue_coherent :
    ∃ r f e expected σ j pair p q, (withValue.transport 0 1 ⟨.app "f" [.const "a"],
        .app "Some" [.const "x"]⟩).1.result = .ok (.ok r) ∧
      withValue.theory.registry.facts[0]? = some f ∧
      withValue.theory.registry.facts[1]? = some e ∧
      r.residual.isSolved = true ∧ r.value = .app "Some" [.const "y"] ∧
      r.Coherent withValue.theory 0 0 1 (f.rename 0) (e.rename 0) expected
        ⟨.app "f" [.const "a"], .app "Some" [.const "x"]⟩ σ j pair (some p) [q] := by
  have hlibrary : withValue.theory.Library := fun rule hrule =>
    (library_standard {}).addRelators rule hrule
  have hfound : (withValue.transport 0 1 ⟨.app "f" [.const "a"],
      .app "Some" [.const "x"]⟩).1.result.toOption.any (fun answer => answer.toOption.any
        fun r => r.residual.isSolved && decide (r.value = .app "Some" [.const "y"])) = true := by
    decide +kernel
  obtain ⟨answer, hanswer, hfound⟩ := exists_ok_of_any hfound
  obtain ⟨r, rfl, hsolved⟩ := exists_ok_of_any hfound
  simp only [Bool.and_eq_true, decide_eq_true_eq] at hsolved
  obtain ⟨f, e, bound, final, hf, he, hbound, -, expected, result, t, j, pair, bridge?, proofs,
    hlifts, -, -, hcoherent⟩ := transport_coherent hlibrary hanswer
  obtain rfl : 0 = bound := Option.some.inj hbound
  have hf' : f = ⟨.arrow (.const "le") (.app "option_rel" [.const "le"]), .const "f", .const "g",
      .const "fg", .pair, 0⟩ := Option.some.inj (hf.symm.trans (by decide +kernel))
  have he' : e = ⟨.const "lt", .const "a", .const "b", .const "ab", .pair, 0⟩ :=
    Option.some.inj (he.symm.trans (by decide +kernel))
  have hexpected : expected = .const "le" := by
    subst hf'
    cases hlifts with
    | dependent h => cases h
    | arrow h =>
      cases h
      rfl
  have hproofs : proofs.length = 1 := by
    have hwitnesses : r.witnesses = [.const "y"] := by
      have hvalue := hcoherent.found.symm.trans hsolved.2
      injection hvalue
    have hlength := hcoherent.settled.length_eq
    have hknown := hcoherent.witnesses
    have hfields := hcoherent.fields
    cases hside : r.derived <;> simp_all [Side.pick]
  obtain ⟨q, rfl⟩ := List.length_eq_one_iff.1 hproofs
  rcases hcoherent.bridged with ⟨⟨τ, hτ⟩, -⟩ | ⟨-, p, rfl, -⟩
  · subst hf' he' hexpected
    cases hτ
  · subst hf'
    exact ⟨r, _, e, expected, final.subst, j, pair, p, q, hanswer, hf, he, hsolved.1, hsolved.2,
      hcoherent⟩

end Engine

end Monotonicity
