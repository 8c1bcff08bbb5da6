import Mathlib.Algebra.BigOperators.Group.List.Basic
import Mathlib.Algebra.Order.Ring.Nat
import Monotonicity.Proofs.Substitution.Complete

/-!
# Unification pair by pair

`unify` answers with the last of the substitutions that it went through, or with none of them. Here
it is taken apart into steps. A job is a list of pairs of terms that are to be made equal, with the
bindings made so far, and a step treats the first pair: it is done with, or a placeholder is bound,
or the pair is replaced by pairs of children. If the terms clash, the job is given up. That a
placeholder is to be bound which has a binding already is an outcome of its own, `rebound`.

Under an acyclic substitution the treatment of a pair never comes to that (`Treated`). All that is
said of jobs is said of one step by cases on `Treated`, and then of all runs: the substitution stays
acyclic, placeholders are bound to placeholders with a smaller index only, what solves a job after a
step solved it before, and every run ends.
-/

namespace Monotonicity

open Relation

/-- All of the terms right below the root together are smaller than the term. -/
theorem Term.sum_sizeOf_children_lt (t : Term) : (t.children.map sizeOf).sum < sizeOf t := by
  have hlist : ∀ ts : List Term, (ts.map sizeOf).sum < sizeOf ts := by
    intro ts
    induction ts with
    | nil => simp
    | cons t ts ih =>
      simp only [List.map_cons, List.sum_cons, List.cons.sizeOf_spec]
      omega
  have harms : ∀ arms : List (Arm Term),
      ((arms.map (·.body)).map sizeOf).sum < sizeOf arms := by
    intro arms
    induction arms with
    | nil => simp
    | cons arm arms ih =>
      obtain ⟨ctor, arity, body⟩ := arm
      simp only [List.map_cons, List.sum_cons, List.cons.sizeOf_spec, Arm.mk.sizeOf_spec]
      omega
  cases t with
  | var i =>
    simp only [children, List.map_nil, List.sum_nil, var.sizeOf_spec]
    omega
  | app head args =>
    have := hlist args
    simp only [children, app.sizeOf_spec]
    omega
  | cases s arms =>
    have := harms arms
    simp only [children, List.map_cons, List.sum_cons, cases.sizeOf_spec]
    omega

theorem Term.Over.child {V : Nat → Prop} {t u : Term} (ht : t.Over V) (hu : u ∈ t.children) :
    u.Over V := by
  have hvar : ∀ i, t ≠ .var i := by
    rintro i rfl
    simp [children] at hu
  exact fun i hi => ht i ((mem_vars_iff_children hvar).2 ⟨u, hu, hi⟩)

namespace Subst

variable {σ τ : Subst} {a b t u : Term} {i j : Nat} {θ : Nat → Term} {W : List Nat}
  {pairs : List (Term × Term)}

theorem mem_mentioned_of_bound (h : i ∈ σ.trail.map Prod.fst) : i ∈ σ.mentioned := by
  induction σ with
  | empty => simp [trail] at h
  | bind σ k u ih =>
    rcases List.mem_cons.1 h with rfl | h
    · exact List.mem_cons_self
    · exact List.mem_cons_of_mem _ (List.mem_append.2 (.inr (ih h)))

/-! ## One pair -/

/-- What the treatment of a pair comes to. -/
inductive Treatment where
  /-- It goes on with these bindings, and with these pairs in place of the one treated. -/
  | next (σ : Subst) (pairs : List (Term × Term))
  /-- The terms cannot be made equal. -/
  | clash
  /-- A placeholder that has a binding was to be bound. -/
  | rebound (i : Nat)

/-- Binds a placeholder that must have no binding. -/
def bindOnce (σ : Subst) (i : Nat) (t : Term) : Treatment :=
  if σ.isBound i then .rebound i else .next (σ.bind i t) []

/-- Binds a placeholder to a term unless it occurs there. -/
def bindChecked (σ : Subst) (i : Nat) (t : Term) : Treatment :=
  if σ.occurs i t then .clash else σ.bindOnce i t

/-- The pairs of children of two terms whose roots agree, the last pair first. A scrutinee comes
behind the bodies of its arms. -/
def childPairs? : Term → Term → Option (List (Term × Term))
  | .app f xs, .app g ys =>
    if f = g ∧ xs.length = ys.length then some (xs.zip ys).reverse else none
  | .cases s xs, .cases t ys =>
    if aligned xs ys then
      some (((xs.map (·.body)).zip (ys.map (·.body))).reverse ++ [(s, t)])
    else none
  | _, _ => none

/-- Treats a pair. -/
def treat (σ : Subst) (a b : Term) : Treatment :=
  if σ.walk a = σ.walk b then .next σ []
  else match σ.walk a, σ.walk b with
    | .var i, .var j => if i < j then σ.bindOnce j (.var i) else σ.bindOnce i (.var j)
    | .var i, t => σ.bindChecked i t
    | t, .var j => σ.bindChecked j t
    | t, u =>
      match childPairs? t u with
      | some pairs => .next σ pairs
      | none => .clash

theorem bindOnce_of_unbound (hi : σ.get? i = none) : σ.bindOnce i t = .next (σ.bind i t) [] := by
  simp [bindOnce, isBound, hi]

/-- What the treatment of a pair can come to if nothing is bound twice. -/
inductive Treated (σ : Subst) (a b : Term) : Treatment → Prop
  | equal (h : σ.walk a = σ.walk b) : Treated σ a b (.next σ [])
  | bound {i : Nat} {t : Term} (hi : σ.get? i = none) (hr : ¬ σ.Reaches t i)
      (hdown : ∀ j, t = .var j → j < i)
      (h : σ.walk a = .var i ∧ σ.walk b = t ∨ σ.walk a = t ∧ σ.walk b = .var i) :
      Treated σ a b (.next (σ.bind i t) [])
  | split {pairs : List (Term × Term)} (h : childPairs? (σ.walk a) (σ.walk b) = some pairs) :
      Treated σ a b (.next σ pairs)
  | clash : Treated σ a b .clash

/-- A checked binding of a placeholder that was walked to. -/
theorem Acyclic.treated_bindChecked (hσ : σ.Acyclic) (ht : ∀ j, t ≠ .var j)
    (hi : σ.get? i = none)
    (h : σ.walk a = .var i ∧ σ.walk b = t ∨ σ.walk a = t ∧ σ.walk b = .var i) :
    Treated σ a b (σ.bindChecked i t) := by
  unfold bindChecked
  split
  · exact .clash
  · next hoccurs =>
    rw [bindOnce_of_unbound hi]
    exact .bound hi (fun hr => hoccurs (hσ.occurs_of_reaches hi hr)) (fun j hj => (ht j hj).elim) h

/-- Placeholders that were walked to are unbound, so nothing is bound twice. -/
theorem Acyclic.treated (hσ : σ.Acyclic) (a b : Term) : Treated σ a b (σ.treat a b) := by
  unfold treat
  split
  · next heq => exact .equal heq
  · next hne =>
    split
    · next i j ha hb =>
      have hi := hσ.walk_eq_var ha
      have hj := hσ.walk_eq_var hb
      have hij : i ≠ j := fun h => hne (by rw [ha, hb, h])
      split
      · next hlt =>
        rw [bindOnce_of_unbound hj]
        refine .bound hj (not_reaches_var hi hij) (fun k hk => ?_) (.inr ⟨ha, hb⟩)
        obtain rfl : i = k := by simpa using hk
        exact hlt
      · next hlt =>
        rw [bindOnce_of_unbound hi]
        refine .bound hi (not_reaches_var hj hij.symm) (fun k hk => ?_) (.inl ⟨ha, hb⟩)
        obtain rfl : j = k := by simpa using hk
        omega
    · next i ha ht =>
      exact hσ.treated_bindChecked ht (hσ.walk_eq_var ha) (.inl ⟨ha, rfl⟩)
    · next j hb ht =>
      exact hσ.treated_bindChecked ht (hσ.walk_eq_var hb) (.inr ⟨rfl, hb⟩)
    · split
      · next pairs h => exact .split h
      · exact .clash

/-- The pairs of children are in some order those that stand in the same place. -/
theorem childPairs?_perm (h : childPairs? t u = some pairs) :
    t.children.length = u.children.length ∧ pairs.Perm (t.children.zip u.children) := by
  unfold childPairs? at h
  split at h
  · split at h
    · next hfg =>
      cases h
      exact ⟨hfg.2, List.reverse_perm _⟩
    · cases h
  · next s xs t ys =>
    split at h
    · next hal =>
      cases h
      have hlen : xs.length = ys.length := by
        simpa [aligned] using congrArg List.length (beq_iff_eq.1 hal)
      refine ⟨by simp [Term.children, hlen], ?_⟩
      simp only [Term.children, List.zip_cons_cons]
      exact (List.perm_append_singleton _ _).trans (.cons _ (List.reverse_perm _))
    · cases h
  · cases h

/-- Aligned arms are equal if their bodies are. -/
theorem arms_subst_eq {xs ys : List (Arm Term)} (halign : aligned xs ys = true)
    (h : (xs.map (·.body)).map (·.subst θ) = (ys.map (·.body)).map (·.subst θ)) :
    (xs.map fun arm => { arm with body := arm.body.subst θ }) =
      ys.map fun arm => { arm with body := arm.body.subst θ } := by
  induction xs generalizing ys with
  | nil =>
    obtain rfl : ys = [] := by simpa using h.symm
    rfl
  | cons x xs ih =>
    cases ys with
    | nil => simp at h
    | cons y ys =>
      simp only [aligned, List.map_cons, beq_iff_eq, List.cons.injEq, Prod.mk.injEq] at halign
      simp only [List.map_cons, List.cons.injEq] at h ⊢
      exact ⟨by rw [halign.1.1, halign.1.2, h.1], ih (beq_iff_eq.2 halign.2) h.2⟩

/-- Terms whose roots agree are equal if their children are. -/
theorem childPairs?_equal (h : childPairs? t u = some pairs)
    (hpairs : ∀ p ∈ pairs, p.1.subst θ = p.2.subst θ) : t.subst θ = u.subst θ := by
  obtain ⟨hlen, hperm⟩ := childPairs?_perm h
  have hchildren : t.children.map (·.subst θ) = u.children.map (·.subst θ) := by
    rw [← List.forall₂_eq_eq_eq, List.forall₂_map_left_iff, List.forall₂_map_right_iff,
      List.forall₂_iff_zip]
    exact ⟨hlen, fun hp => hpairs _ (hperm.mem_iff.2 hp)⟩
  unfold childPairs? at h
  split at h
  · next f xs g ys =>
    split at h
    · next hfg =>
      rw [Term.subst_app, Term.subst_app, hfg.1]
      exact congrArg _ hchildren
    · cases h
  · next s xs t ys =>
    split at h
    · next hal =>
      simp only [Term.children, List.map_cons, List.cons.injEq] at hchildren
      rw [Term.subst_cases, Term.subst_cases, hchildren.1, arms_subst_eq hal hchildren.2]
    · cases h
  · cases h

/-! ## Jobs -/

/-- Pairs of terms that are to be made equal, the next one first, and the bindings so far. -/
structure Job where
  pairs : List (Term × Term)
  subst : Subst

namespace Job

/-- The first pair is treated. -/
inductive Step : Job → Job → Prop
  | treat {σ τ : Subst} {a b : Term} {rest pairs : List (Term × Term)}
      (h : σ.treat a b = .next τ pairs) : Step ⟨(a, b) :: rest, σ⟩ ⟨pairs ++ rest, τ⟩

/-- So many pairs are treated, one after the other. -/
def Run : Job → Job → Prop := ReflTransGen Step

/-- The first pair cannot be made equal. -/
def Clashes (job : Job) : Prop :=
  ∃ a b rest, job.pairs = (a, b) :: rest ∧ job.subst.treat a b = .clash

/-- For the first pair a placeholder is to be bound that has a binding. -/
def Rebinds (job : Job) : Prop :=
  ∃ a b rest i, job.pairs = (a, b) :: rest ∧ job.subst.treat a b = .rebound i

variable {job job' job'' : Job}

/-! ### Steps are determined -/

theorem Step.unique (h : job.Step job') (h' : job.Step job'') : job' = job'' := by
  cases h with
  | treat h =>
    cases h' with
    | treat h' =>
      rw [h] at h'
      cases h'
      rfl

/-- No step leads on from a job. -/
def Final (job : Job) : Prop := ∀ job', ¬ job.Step job'

theorem final_nil : Final ⟨[], σ⟩ := fun _ h => by cases h

theorem Clashes.final (h : job.Clashes) : job.Final := by
  obtain ⟨a, b, rest, hpairs, hclash⟩ := h
  rintro job' hstep
  cases hstep with
  | treat h =>
    cases hpairs
    rw [hclash] at h
    cases h

theorem Run.unique (h : job.Run job') (h' : job.Run job'') (hfinal : job'.Final)
    (hfinal' : job''.Final) : job' = job'' := by
  induction h using ReflTransGen.head_induction_on with
  | refl =>
    rcases ReflTransGen.cases_head h' with heq | ⟨next, hnext, -⟩
    · exact heq
    · exact (hfinal _ hnext).elim
  | head hstep hrest ih =>
    rcases ReflTransGen.cases_head h' with rfl | ⟨next, hnext, hrest'⟩
    · exact (hfinal' _ hstep).elim
    · exact ih (hstep.unique hnext ▸ hrest')

end Job

/-! ## What a step keeps -/

/-- No cycle, and every placeholder that is bound to a placeholder is bound to one with a smaller
index. -/
structure Orderly (σ : Subst) : Prop where
  acyclic : σ.Acyclic
  down : ∀ i j, σ.get? i = some (.var j) → j < i

theorem orderly_empty : Subst.empty.Orderly where
  acyclic := acyclic_empty
  down i j h := by simp at h

theorem Orderly.of_le (hτ : τ.Orderly) (h : σ ≤ τ) : σ.Orderly where
  acyclic := hτ.acyclic.of_le h
  down i j hi := hτ.down i j (get?_of_le hτ.acyclic.nodup h hi)

theorem Orderly.bind (hσ : σ.Orderly) (hi : σ.get? i = none) (hr : ¬ σ.Reaches t i)
    (hdown : ∀ j, t = .var j → j < i) : (σ.bind i t).Orderly where
  acyclic := hσ.acyclic.bind hi hr
  down k j hk := by
    by_cases hki : k = i
    · subst hki
      rw [get?_bind_self, Option.some.injEq] at hk
      exact hdown j hk
    · rw [get?_bind_of_ne σ hki] at hk
      exact hσ.down k j hk

namespace Job

variable {job job' : Job}

theorem Step.orderly (h : job.Step job') (hσ : job.subst.Orderly) :
    job'.subst.Orderly ∧ job.subst ≤ job'.subst := by
  cases h with
  | @treat σ τ a b rest pairs h =>
    have htreated : Treated σ a b (.next τ pairs) := h ▸ hσ.acyclic.treated a b
    cases htreated with
    | equal => exact ⟨hσ, le_refl σ⟩
    | bound hi hr hdown => exact ⟨hσ.bind hi hr hdown, le_bind σ _ _⟩
    | split => exact ⟨hσ, le_refl σ⟩

theorem Run.orderly (h : job.Run job') (hσ : job.subst.Orderly) :
    job'.subst.Orderly ∧ job.subst ≤ job'.subst := by
  induction h with
  | refl => exact ⟨hσ, le_refl _⟩
  | tail _ hstep ih =>
    obtain ⟨hnext, hle⟩ := hstep.orderly ih.1
    exact ⟨hnext, le_trans ih.2 hle⟩

/-- No placeholder is bound twice. -/
theorem not_rebinds (hσ : job.subst.Acyclic) : ¬ job.Rebinds := by
  rintro ⟨a, b, rest, i, -, h⟩
  have htreated := hσ.treated a b
  rw [h] at htreated
  cases htreated

/-! ### Solutions -/

/-- The assignment agrees with the bindings and makes the terms of every pair equal. -/
def Solved (job : Job) (θ : Nat → Term) : Prop :=
  job.subst.Solves θ ∧ ∀ p ∈ job.pairs, p.1.subst θ = p.2.subst θ

/-- What solves the job after a step solved it before. -/
theorem Step.solved (h : job.Step job') (hσ : job.subst.Orderly) (hθ : job'.Solved θ) :
    job.Solved θ := by
  obtain ⟨hτ, hle⟩ := h.orderly hσ
  have hsolves := hθ.1.of_le hτ.acyclic.nodup hle
  cases h with
  | @treat σ τ a b rest pairs h =>
    obtain ⟨hnew, hrest⟩ := List.forall_mem_append.1 hθ.2
    have htreated : Treated σ a b (.next τ pairs) := h ▸ hσ.acyclic.treated a b
    have hwalk : (σ.walk a).subst θ = (σ.walk b).subst θ := by
      cases htreated with
      | equal heq => rw [heq]
      | bound hi hr hdown hab =>
        have hbound := solves_bind hθ.1
        rcases hab with ⟨ha, hb⟩ | ⟨ha, hb⟩
        · rw [ha, hb]
          exact hbound
        · rw [ha, hb]
          exact hbound.symm
      | split hsplit => exact childPairs?_equal hsplit hnew
    rw [hsolves.walk, hsolves.walk] at hwalk
    exact ⟨hsolves, List.forall_mem_cons.2 ⟨hwalk, hrest⟩⟩

theorem Run.solved (h : job.Run job') (hσ : job.subst.Orderly) (hθ : job'.Solved θ) :
    job.Solved θ := by
  induction h using ReflTransGen.head_induction_on with
  | refl => exact hθ
  | head hstep _ ih => exact hstep.solved hσ (ih (hstep.orderly hσ).1)

/-! ### Runs end -/

/-- All placeholders of the pairs and of the bindings are in `W`. -/
structure Over (W : List Nat) (job : Job) : Prop where
  bound : ∀ i ∈ job.subst.trail.map Prod.fst, i ∈ W
  within : job.subst.Within (Term.Over (· ∈ W))
  pairs : ∀ p ∈ job.pairs, p.1.Over (· ∈ W) ∧ p.2.Over (· ∈ W)

theorem exists_over (job : Job) : ∃ W, job.Over W := by
  refine ⟨job.subst.mentioned ++ job.pairs.flatMap fun p => p.1.vars ++ p.2.vars, ?_, ?_, ?_⟩
  · intro i hi
    exact List.mem_append.2 (.inl (mem_mentioned_of_bound hi))
  · intro i t _ ht j hj
    exact List.mem_append.2 (.inl (mem_mentioned_of_get? ht j hj))
  · intro p hp
    constructor
    all_goals
      intro j hj
      refine List.mem_append.2 (.inr (List.mem_flatMap.2 ⟨p, hp, ?_⟩))
      simp [hj]

/-- The number of placeholders still to be bound, and the size of the terms still to be gone
through. -/
noncomputable def left (W : List Nat) (job : Job) : Nat × Nat :=
  (W.length - job.subst.size, (job.pairs.map fun p => sizeOf (job.subst.resolve p.1)).sum)

theorem Over.step (hjob : job.Over W) (hσ : job.subst.Acyclic) (h : job.Step job') :
    job'.Over W := by
  cases h with
  | @treat σ τ a b rest pairs h =>
    obtain ⟨hbound, hwithin, hpairs⟩ := hjob
    obtain ⟨⟨ha, hb⟩, hrest⟩ := List.forall_mem_cons.1 hpairs
    have ha := hwithin.walk ha
    have hb := hwithin.walk hb
    have htreated : Treated σ a b (.next τ pairs) := h ▸ hσ.treated a b
    cases htreated with
    | equal => exact ⟨hbound, hwithin, hrest⟩
    | @bound i t hi hr hdown hab =>
      have hit : i ∈ W ∧ t.Over (· ∈ W) := by
        rcases hab with ⟨hwa, hwb⟩ | ⟨hwa, hwb⟩
        · rw [hwa, Term.over_var] at ha
          exact ⟨ha, hwb ▸ hb⟩
        · rw [hwb, Term.over_var] at hb
          exact ⟨hb, hwa ▸ ha⟩
      exact ⟨List.forall_mem_cons.2 ⟨hit.1, hbound⟩, hwithin.bind i hit.2, hrest⟩
    | split hsplit =>
      refine ⟨hbound, hwithin, List.forall_mem_append.2 ⟨fun p hp => ?_, hrest⟩⟩
      have hzip := (childPairs?_perm hsplit).2.mem_iff.1 hp
      obtain ⟨hleft, hright⟩ := List.of_mem_zip hzip
      exact ⟨ha.child hleft, hb.child hright⟩

/-- A step binds a placeholder, or else it goes on to smaller terms. -/
theorem Over.step_lt (hjob : job.Over W) (hσ : job.subst.Orderly) (h : job.Step job') :
    Prod.Lex (· < ·) (· < ·) (job'.left W) (job.left W) := by
  have hover := hjob.step hσ.acyclic h
  have hnodup := (h.orderly hσ).1.acyclic.nodup
  cases h with
  | @treat σ τ a b rest pairs h =>
    have htreated : Treated σ a b (.next τ pairs) := h ▸ hσ.acyclic.treated a b
    cases htreated with
    | equal =>
      refine .right _ ?_
      have hpos : 0 < sizeOf (σ.resolve a) :=
        Nat.zero_lt_of_lt (Term.sum_sizeOf_children_lt (σ.resolve a))
      simp only [List.nil_append, List.map_cons, List.sum_cons]
      omega
    | @bound i t hi hr hdown hab =>
      refine .left _ _ ?_
      have hle := (List.subperm_of_subset hnodup hover.bound).length_le
      rw [List.length_map, ← size_eq_length_trail, size_bind] at hle
      change W.length - (σ.bind i t).size < W.length - σ.size
      rw [size_bind]
      omega
    | split hsplit =>
      refine .right _ ?_
      obtain ⟨hlen, hperm⟩ := childPairs?_perm hsplit
      have hsum : (pairs.map fun p => sizeOf (σ.resolve p.1)).sum =
          ((σ.resolve a).children.map sizeOf).sum := by
        rw [(hperm.map _).sum_nat, hσ.acyclic.children_resolve a, List.map_map]
        conv_rhs => rw [← List.map_fst_zip hlen.le, List.map_map]
        rfl
      have hlt := Term.sum_sizeOf_children_lt (σ.resolve a)
      simp only [List.map_append, List.sum_append, List.map_cons, List.sum_cons, hsum]
      omega

/-- Every run comes to an end. -/
theorem Over.acc (hjob : job.Over W) (hσ : job.subst.Orderly) : Acc (flip Step) job := by
  have hwf : WellFounded (InvImage (Prod.Lex (· < ·) (· < ·)) (left W)) :=
    InvImage.wf _ (Prod.lex Nat.lt_wfRel Nat.lt_wfRel).wf
  induction job using hwf.induction with
  | h job ih =>
    exact ⟨job, fun next hstep =>
      ih next (hjob.step_lt hσ hstep) (hjob.step hσ.acyclic hstep) (hstep.orderly hσ).1⟩

theorem acc_of_orderly (hσ : job.subst.Orderly) : Acc (flip Step) job := by
  obtain ⟨W, hW⟩ := job.exists_over
  exact hW.acc hσ

theorem exists_final (hσ : job.subst.Orderly) : ∃ last, job.Run last ∧ last.Final := by
  induction acc_of_orderly hσ with
  | intro job _ ih =>
    by_cases hfinal : job.Final
    · exact ⟨job, .refl, hfinal⟩
    · simp only [Final, not_forall, not_not] at hfinal
      obtain ⟨next, hstep⟩ := hfinal
      obtain ⟨last, hrun, hlast⟩ := ih next hstep (hstep.orderly hσ).1
      exact ⟨last, .head hstep hrun, hlast⟩

/-- A job comes to an end when all is done or when two terms clash. -/
theorem Final.cases (h : job.Final) (hσ : job.subst.Acyclic) : job.pairs = [] ∨ job.Clashes := by
  obtain ⟨pairs, σ⟩ := job
  match pairs with
  | [] => exact .inl rfl
  | (a, b) :: rest =>
    right
    have htreated := hσ.treated a b
    cases hr : σ.treat a b with
    | next τ pairs => exact (h _ (.treat hr)).elim
    | clash => exact ⟨a, b, rest, rfl, hr⟩
    | rebound i =>
      rw [hr] at htreated
      cases htreated

end Job

end Subst

end Monotonicity
