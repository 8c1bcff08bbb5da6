import Monotonicity.Proofs.Calculus.Offer

/-!
# Arguments are eliminated as the calculus prescribes

Taking pairs of arguments through a relation reaches another relation, at the cost of proofs of
edges and of goals on the arguments. `Reached` says what the cost is at all later bindings.
-/

namespace Monotonicity

open Search

variable {T : Theory} {ρ : Type} {s t u : State} {S : ρ → State → Prop} {goal : Goal}
  {prove : Prover} {e e' e'' : Elimination} {a b rel wanted : Term}

/-- From the elimination `e` at `s` to the elimination `e'` at `t`: the proofs added are
derivations, and together with the goals added and the relation reached they have the property `R`,
at all later bindings. -/
structure Reached (T : Theory) (s : State)
    (R : Subst → Nat → Term → List Premise → List Goal → Prop) (e e' : Elimination) (t : State) :
    Prop where
  grown : s.Grown t
  cost : ∀ σ w, σ.Acyclic → t.subst ≤ σ → t.delayed <+: w → ∃ m edges owed, m ≤ t.minted ∧
    R σ m (σ.resolve e'.rel) edges owed ∧
    e'.premises = e.premises ++ edges.map Premise.proof ∧
    e'.subgoals.map (·.resolve σ) = e.subgoals.map (·.resolve σ) ++ owed ∧
    AllDerived T σ (w.map (·.resolve σ)) (s.hyps.map (·.resolve σ)) edges

/-- A relation is reached without proofs. -/
theorem Reached.of_owing {R : Subst → Nat → Term → List Premise → List Goal → Prop}
    {goals : List Goal} (hs : s.Grown t)
    (h : ∀ σ, σ.Acyclic → t.subst ≤ σ →
      R σ s.minted (σ.resolve rel) [] (goals.map (·.resolve σ))) :
    Reached T s R e { e with rel := rel, subgoals := e.subgoals ++ goals } t where
  grown := hs
  cost σ w hσ hle _ :=
    ⟨s.minted, [], goals.map (·.resolve σ), hs.minted, h σ hσ hle, by simp, by simp,
      allDerived_nil⟩

/-- Nothing but the relations and the property need to be looked at to judge another way. -/
theorem Reached.imp {R R' : Subst → Nat → Term → List Premise → List Goal → Prop}
    {d d' : Elimination} (h : Reached T s R d d' t) (hp : e.premises = d.premises)
    (hg : e.subgoals = d.subgoals) (hp' : e'.premises = d'.premises)
    (hg' : e'.subgoals = d'.subgoals)
    (hR : ∀ σ m edges owed, σ.Acyclic → t.subst ≤ σ → R σ m (σ.resolve d'.rel) edges owed →
      R' σ m (σ.resolve e'.rel) edges owed) : Reached T s R' e e' t where
  grown := h.grown
  cost σ w hσ hle hw := by
    obtain ⟨m, edges, owed, hm, hr, hrest⟩ := h.cost σ w hσ hle hw
    rw [hp, hg, hp', hg']
    exact ⟨m, edges, owed, hm, hR σ m edges owed hσ hle hr, hrest⟩

/-- A relation is reached by one proof, found at `t` and used at `u`. -/
theorem Reached.of_via {R : Subst → Nat → Term → List Premise → List Goal → Prop} {g : Goal}
    {p : Proof} {m : Nat} (hp : (replay T).Granted s g p t) (hu : t.Grown u) (hm : m ≤ u.minted)
    (h : ∀ σ, σ.Acyclic → u.subst ≤ σ →
      R σ m (σ.resolve rel) [.derived s.minted [] (g.resolve σ) p] []) :
    Reached T s R e (e.via rel p) u where
  grown := hp.grown.trans hu
  cost σ w hσ hle hw := by
    have hd := hp.grants σ w hσ (Subst.le_trans hu.subst hle) (hu.delayed.trans hw)
    rw [← List.append_nil (List.map _ s.hyps)] at hd
    exact ⟨m, _, [], hm, h σ hσ hle, rfl, by simp [Elimination.via],
      allDerived_cons hd allDerived_nil⟩

/-! ## One pair of arguments -/

/-- A relation through which a pair is taken directly. A placeholder has become an arrow by then. -/
def StraightAt (s : State) (rel a b : Term) (σ : Subst) (m : Nat) (rel' : Term)
    (edges : List Premise) (owed : List Goal) : Prop :=
  Straight σ s.minted (σ.resolve rel) (σ.resolve a) (σ.resolve b) m rel' edges owed ∧
    ((s.subst.view rel).shape = .placeholder → ∃ dom cod, σ.resolve rel = .arrow dom cod)

theorem view_arrow (dom cod : Term) : (Term.arrow dom cod).view = .arrow dom cod := by
  simp [Term.view_eq, Term.arrow, Term.unflip, View.ofHead]

namespace Search

/-- An edge is named by its proof, or else by a new constant. -/
theorem edgeName_gets {p : Proof} :
    (edgeName p).Gets s fun w t => s.Kept t ∧ (p.witness? = some w ∨
      p.witness? = none ∧ w = .minting "e" s.minted ∧ t.minted = s.minted + 1) := by
  unfold edgeName
  cases hw : p.witness? with
  | some w => exact .pure ⟨.refl s, .inl rfl⟩
  | none => exact freshConst_gets.mono fun w t _ h => ⟨h.1, .inr ⟨rfl, h.2.2, h.2.1⟩⟩

theorem eliminateStraight_yields (hprove : (replay T).Met prove) {k : Elimination → Search ρ}
    (hk : ∀ e' t, Reached T s (StraightAt s e.rel a b) e e' t → (k e').Yields t S) :
    (eliminateStraight prove goal e a b k).Yields s S := by
  refine Yields.subst ?_
  split
  · next dom cod hview =>
    refine hk _ s (.of_owing (.refl s) fun σ hσ hle => ⟨.arrow ?_, by simp [hview, View.shape]⟩)
    rw [hσ.view_later hle (by simp [hview, View.Solid]), hview]
    rfl
  · next edge family hview =>
    refine (hprove trivial trivial fun p t₁ h₁ => ?_).yields
    refine edgeName_gets.yields fun w t₂ _ h₂ => Yields.subst ?_
    refine (Gets.require .gap).yields fun rel t₃ _ h₃ => ?_
    obtain ⟨hk₂, hw⟩ := h₂
    obtain ⟨hrel, rfl⟩ := h₃
    -- what was seen of the relation before the edge was proved is still so
    have hlater : ∀ σ : Subst, σ.Acyclic → t₃.subst ≤ σ →
        (σ.resolve e.rel).view = .dependent (σ.resolve edge) (σ.resolve family) ∧
        (Subst.empty.family? (σ.resolve family) (σ.resolve a) (σ.resolve b) (σ.resolve w) =
          some (σ.resolve rel)) := fun σ hσ hle => by
      have hs := Subst.le_trans (h₁.grown.trans hk₂.grown).subst hle
      refine ⟨?_, hσ.family?_later hle hrel⟩
      rw [hσ.view_later hs (by simp [hview, View.Solid]), hview]
      rfl
    rcases hw with hw | ⟨hw, rfl, hm⟩
    · refine hk _ t₃ (.of_via h₁ hk₂.grown (h₁.grown.trans hk₂.grown).minted fun σ hσ hle => ?_)
      obtain ⟨hv, hf⟩ := hlater σ hσ hle
      exact ⟨.edge hv hw hf, by simp [hview, View.shape]⟩
    · refine hk _ t₃ (.of_via h₁ hk₂.grown hm.ge fun σ hσ hle => ?_)
      obtain ⟨hv, hf⟩ := hlater σ hσ hle
      rw [Term.minting, Term.const, hσ.resolve_app] at hf
      exact ⟨.newEdge hv hw h₁.grown.minted hf, by simp [hview, View.shape]⟩
  · next hview =>
    refine hk _ s (.of_owing (.refl s) fun σ hσ hle =>
      ⟨.equality ?_, by simp [hview, View.shape]⟩)
    rw [hσ.view_later hle (by simp [hview, View.Solid]), hview]
    rfl
  · next hview =>
    have h : Reached T s (StraightAt s e.rel a b) e
        { e with rel := e.rel, subgoals := e.subgoals ++ [] } s := by
      refine .of_owing (.refl s) fun σ hσ hle => ⟨.top ?_, by simp [hview, View.shape]⟩
      rw [hσ.view_later hle (by simp [hview, View.Solid]), hview]
      rfl
    rw [List.append_nil] at h
    exact hk e s h
  · next i hview =>
    refine freshVar_gets.yields fun dom t₁ _ h₁ => freshVar_gets.yields fun cod t₂ _ h₂ => ?_
    have hk₂ : s.Kept t₂ := h₁.1.trans h₂.1
    refine Yields.unify (fun t₃ h₃ hu => ?_) fun _ _ => .gap
    refine hk _ t₃ (.of_owing (hk₂.grown.trans h₃) fun σ hσ hle => ?_)
    have hrel : σ.resolve e.rel = .arrow (σ.resolve dom) (σ.resolve cod) := by
      rw [(Subst.unify_gains hu).resolve_eq hσ hle, Term.arrow, hσ.resolve_app]
      rfl
    refine ⟨.arrow ?_, fun _ => ⟨_, _, hrel⟩⟩
    rw [hrel, view_arrow]
  · exact .gap

/-- The relation seen behind an odd number of converses stays behind them. -/
theorem view_flip_of_straight {inner : Term} {σ : Subst} (hσ : σ.Acyclic) (hle : s.subst ≤ σ)
    (hview : s.subst.view rel = .flip inner)
    (hph : (s.subst.view inner).shape = .placeholder →
      ∃ dom cod, σ.resolve inner = .arrow dom cod) :
    (σ.resolve rel).view = .flip (σ.resolve inner) := by
  obtain ⟨-, hcore, hunbound⟩ := (hσ.of_le hle).of_view_flip hview
  refine hσ.view_flip_later hle hview ?_
  by_cases hv : ∃ i, inner = .var i
  · obtain ⟨i, rfl⟩ := hv
    have hi : s.subst.Leaves (.var i) := by simpa [Subst.Leaves] using hunbound i rfl
    obtain ⟨dom, cod, heq⟩ := hph (by rw [hi.view_eq]; rfl)
    rw [heq]
    intro u hu
    simp [Term.arrow, Term.flip] at hu
  · rw [hσ.resolve_eq_subst]
    exact hcore.subst (fun i hi => hv ⟨i, hi⟩) _

theorem eliminate_yields (hprove : (replay T).Met prove) {k : Elimination → Search ρ}
    (hk : ∀ e' t, Reached T s (fun σ m rel' edges owed =>
      Passes σ s.minted (σ.resolve e.rel) (σ.resolve a) (σ.resolve b) m rel' edges owed) e e' t →
      (k e').Yields t S) :
    (eliminate prove goal e a b k).Yields s S := by
  refine Yields.subst ?_
  split
  · next inner hview =>
    -- a relation that is its own converse takes the pair as it is, any other the swapped pair
    have hsame (hinner : s.subst.view inner = .equality ∨ s.subst.view inner = .top) :
        (eliminateStraight prove goal { e with rel := inner } a b k).Yields s S := by
      refine eliminateStraight_yields hprove fun e' t h => hk e' t ?_
      refine h.imp rfl rfl rfl rfl fun σ m edges owed hσ hle hR => ?_
      have hs := Subst.le_trans h.grown.subst hle
      refine .symmetric (view_flip_of_straight hσ hs hview hR.2) ?_ hR.1
      rcases hinner with hinner | hinner
      · rw [hσ.view_later hs (by simp [hinner, View.Solid]), hinner]
        exact .inl rfl
      · rw [hσ.view_later hs (by simp [hinner, View.Solid]), hinner]
        exact .inr rfl
    have hswap (hinner : (s.subst.view inner).shape = .arrow ∨
        (s.subst.view inner).shape = .dependent ∨ (s.subst.view inner).shape = .placeholder) :
        (eliminateStraight prove goal { e with rel := inner } b a fun e =>
          k { e with rel := e.rel.flip }).Yields s S := by
      refine eliminateStraight_yields hprove fun e' t h => hk _ t ?_
      refine h.imp rfl rfl rfl rfl fun σ m edges owed hσ hle hR => ?_
      have hs := Subst.le_trans h.grown.subst hle
      have hflip : σ.resolve e'.rel.flip = (σ.resolve e'.rel).flip := by
        rw [Term.flip, hσ.resolve_app]
        rfl
      rw [hflip]
      refine .converse (view_flip_of_straight hσ hs hview hR.2) ?_ hR.1
      by_cases hph : (s.subst.view inner).shape = .placeholder
      · obtain ⟨dom, cod, heq⟩ := hR.2 hph
        rw [heq, view_arrow]
        exact .inl rfl
      · have hsolid : (s.subst.view inner).Solid := by
          cases hv : s.subst.view inner <;> simp_all [View.shape, View.Solid]
        rw [hσ.view_later hs hsolid, View.shape_map]
        tauto
    split
    · next hinner => exact hsame (.inl hinner)
    · next hinner => exact hsame (.inr hinner)
    · next hinner => exact hswap (.inl (by rw [hinner]; rfl))
    · next hinner => exact hswap (.inr (.inl (by rw [hinner]; rfl)))
    · next hinner => exact hswap (.inr (.inr (by rw [hinner]; rfl)))
    · exact .gap
  · exact eliminateStraight_yields hprove fun e' t h => hk e' t
      (h.imp rfl rfl rfl rfl fun σ m edges owed _ _ hR => .straight hR.1)

/-! ## All pairs of arguments -/

theorem eliminateAll_yields (hprove : (replay T).Met prove) {k : Elimination → Search ρ}
    {pairs : List (Term × Term)}
    (hk : ∀ e' t, Reached T s (fun σ m rel' edges owed =>
      Eliminates σ s.minted (σ.resolve e.rel)
        (pairs.map fun p => (σ.resolve p.1, σ.resolve p.2)) m rel' edges owed) e e' t →
      (k e').Yields t S) :
    (eliminateAll prove goal k pairs e).Yields s S := by
  induction pairs generalizing s e with
  | nil =>
    refine hk e s ⟨.refl s, fun σ w _ _ _ => ⟨s.minted, [], [], le_rfl, .nil, ?_⟩⟩
    simpa using allDerived_nil
  | cons pair rest ih =>
    obtain ⟨a, b⟩ := pair
    refine eliminate_yields hprove fun e₁ t h₁ => ih fun e₂ u h₂ => hk e₂ u ?_
    refine ⟨h₁.grown.trans h₂.grown, fun σ w hσ hle hw => ?_⟩
    obtain ⟨m₁, edges₁, owed₁, hm₁, hR₁, hp₁, hg₁, hd₁⟩ :=
      h₁.cost σ w hσ (Subst.le_trans h₂.grown.subst hle) (h₂.grown.delayed.trans hw)
    obtain ⟨m₂, edges₂, owed₂, hm₂, hR₂, hp₂, hg₂, hd₂⟩ := h₂.cost σ w hσ hle hw
    rw [h₁.grown.hyps] at hd₂
    refine ⟨m₂, edges₁ ++ edges₂, owed₁ ++ owed₂, hm₂, .cons hR₁ hm₁ hR₂, ?_, ?_, hd₁.append hd₂⟩
    · rw [hp₂, hp₁, List.map_append, List.append_assoc]
    · rw [hg₂, hg₁, List.append_assoc]

/-! ## Bridging -/

/-- The relation wanted is reached at once or by a proof of the inclusion. -/
theorem bridge_yields (hprove : (replay T).Met prove) {k : Elimination → Search ρ}
    (hk : ∀ e' t, s.Grown t → e'.subgoals = e.subgoals →
      (∀ σ w n, σ.Acyclic → t.subst ≤ σ → t.delayed <+: w → n ≤ s.minted → ∃ premises,
        Bridges σ n (σ.resolve e.rel) (σ.resolve wanted) premises ∧
        e'.premises = e.premises ++ premises.map Premise.proof ∧
        AllDerived T σ (w.map (·.resolve σ)) (s.hyps.map (·.resolve σ)) premises) →
      (k e').Yields t S) :
    (bridge prove goal wanted e k).Yields s S := by
  refine Yields.subst ?_
  split
  · next hview =>
    refine hk e s (.refl s) rfl fun σ w n hσ hle _ _ => ⟨[], .same hle rfl rfl hview, ?_⟩
    simpa using allDerived_nil
  · next hview =>
    refine bridging_yields (fun cross hcross t ht => ?_) fun crossed why t ht => ?_
    · refine (hprove trivial trivial fun p u hu => hcross p u fun v hv => ?_).yields
      have hp : (replay T).Granted s (.subrel e.rel wanted) p v :=
        Contract.Granted.from ⟨hu.grown.trans hv.grown, trivial,
          (replay T).grants_mono hv.grown.subst hv.grown.delayed hu.grants⟩ ht.grown
      refine hk _ v hp.grown rfl fun σ w n hσ hle hw hn => ?_
      have hd := (hp.grants σ w hσ hle hw).of_le hn
      rw [← List.append_nil (List.map _ s.hyps)] at hd
      exact ⟨[.derived n [] ((Goal.subrel e.rel wanted).resolve σ) p],
        .crossed (Subst.le_trans hp.grown.subst hle) rfl rfl hview, rfl,
        allDerived_cons hd allDerived_nil⟩
    · split
      · exact .fail
      · exact .gap

end Search

end Monotonicity
