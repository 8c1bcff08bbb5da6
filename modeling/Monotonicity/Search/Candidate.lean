import Monotonicity.Search.Basic

/-!
# Candidates

For a goal `R (h a₁ … aₙ) t` a candidate is a fact or hypothesis `R' f g` in which `f` is
`h a₁ … aₖ`. The remaining arguments are eliminated through `R'`, and what is left of `R'` has to be
included in `R`. Facts are looked up for `k` from `n` down to 0, or, if the head has a declared
number of parameters, at once for every `k` that keeps those.

Every candidate, every proof of an edge that elimination needs, and every proof of the final
inclusion is an alternative of its own. The obligations on the arguments are left as subgoals.
-/

namespace Monotonicity

inductive Source where
  | hypothesis (position : Nat)
  | fact (id : Nat)
deriving DecidableEq, Repr

/-- A fact or hypothesis proposed for a goal, renamed apart for this use. -/
structure Candidate where
  source : Source
  rel : Term
  left : Term
  right : Term
  witness : Term
  consumed : Nat
deriving DecidableEq, Repr

namespace Candidate

def side (c : Candidate) (s : Side) : Term := s.pick c.left c.right

def proof (c : Candidate) : Proof :=
  match c.source with
  | .hypothesis _ => .hypothesis c.witness
  | .fact id => .fact id c.witness

def insert (c : Candidate) : List Candidate → List Candidate
  | [] => [c]
  | d :: rest => if d.consumed ≤ c.consumed then c :: d :: rest else d :: insert c rest

/-- The candidates by the number of arguments covered, the largest first and otherwise in order. -/
def longestFirst (cs : List Candidate) : List Candidate := cs.foldr insert []

end Candidate

inductive Batch where
  | exact (arity : Nat)
  /-- What covers at least the parameters and at most all arguments. -/
  | parameters (params arity : Nat)
deriving DecidableEq, Repr

namespace Batch

/-- `covers`: whether a candidate for so many arguments belongs to the look-up. -/
def covers : Batch → Nat → Bool
  | .exact k, n => n = k
  | .parameters p k, n => p ≤ n && n ≤ k

/-- The look-ups from `n` arguments down to none, as `next` gives them. -/
def countdown : Nat → List Batch
  | 0 => [.exact 0]
  | n + 1 => .exact (n + 1) :: countdown n

/-- The look-ups for a head with so many arguments, given its declared number of parameters. -/
def plan (params : Option Nat) (arity : Nat) : List Batch :=
  match params with
  | some p => if p ≤ arity then [.parameters p arity] else countdown arity
  | none => countdown arity

def arrange : Batch → List Candidate → List Candidate
  | .exact _, cs => cs
  | .parameters _ _, cs => Candidate.longestFirst cs

end Batch

namespace Search

variable {ρ : Type}

/-! ## Looking up -/

def hypothesisCandidates (σ : Subst) (side : Side) (head : String) (batch : Batch)
    (hyps : List Hypothesis) : List Candidate :=
  hyps.zipIdx.filterMap fun (h, i) =>
    match σ.walk (side.pick h.left h.right) with
    | .app f args =>
      if f = head ∧ batch.covers args.length then
        some ⟨.hypothesis i, h.rel, h.left, h.right, h.witness, args.length⟩
      else none
    | _ => none

/-- The facts among the given ones that belong to a look-up, each renamed apart. -/
def factCandidates (T : Theory) (side : Side) (batch : Batch) : List Nat → Search (List Candidate)
  | [] => pure []
  | id :: rest => do
    let some fact := T.registry.facts[id]? | factCandidates T side batch rest
    let .app _ args := fact.side side | factCandidates T side batch rest
    if batch.covers args.length then
      -- set aside for good, also if the fact turns out not to fit
      let f := fact.rename (← reserve fact.schematic)
      return ⟨.fact id, f.rel, f.left, f.right, f.witness, args.length⟩
        :: (← factCandidates T side batch rest)
    else factCandidates T side batch rest

/-- `probe`: the candidates of one look-up, first the hypotheses, then the facts. -/
def probe (T : Theory) (side : Side) (head : String) (batch : Batch) :
    Search (List Candidate) := do
  count fun n => { n with probes := n.probes + 1 }
  let assumed := hypothesisCandidates (← subst) side head batch (← hyps)
  let ids := match batch with
    | .exact k => T.registry.byShape side head k
    | .parameters _ _ => T.registry.byHead side head
  let facts ← factCandidates T side batch ids
  return batch.arrange assumed ++ batch.arrange facts

def firstBatch (T : Theory) (side : Side) (head : String) : List Batch → Search (List Candidate)
  | [] => pure []
  | batch :: rest => do
    let found ← probe T side head batch
    if found.isEmpty then firstBatch T side head rest else return found

/-- `select`: the candidates that would be tried first for a term on one side. -/
def select (T : Theory) (side : Side) (term : Term) :
    Search (Except Failure (List Candidate)) := do
  let .app head args := (← subst).walk term | return .error (.noCandidate (.term term))
  let found ← firstBatch T side head
    (Batch.plan (T.registry.parameters.get? head) args.length)
  return if found.isEmpty then .error (.noCandidate (.term term)) else .ok found

/-! ## Lining a candidate up -/

/-- `split_side`: splits a side of the goal into `base` and `extra` further arguments. A placeholder
becomes `base` applied to new placeholders. -/
def splitSide (goal : Goal) (side base : Term) (extra : Nat) : Search (List Term) := do
  let σ ← subst
  match σ.walk side with
  | .var i =>
    let args ← freshVars extra
    let value ← require (if extra = 0 then some base else (σ.walk base).extend? args)
      (noCandidate goal)
    if ← unify (.var i) value then return args else noCandidate goal
  | .app head args =>
    if args.length < extra then noCandidate goal
    else
      let keep := args.length - extra
      if ← unify (.app head (args.take keep)) base then return args.drop keep
      else noCandidate goal
  | .cases _ _ => noCandidate goal

/-! ## Eliminating arguments -/

/-- A relation with what it cost to get there: the proofs used, and the obligations on arguments. -/
structure Elimination where
  rel : Term
  premises : List Proof
  subgoals : List Goal := []

namespace Elimination

def owing (e : Elimination) (rel : Term) (goal : Goal) : Elimination :=
  { e with rel := rel, subgoals := e.subgoals ++ [goal] }

def via (e : Elimination) (rel : Term) (p : Proof) : Elimination :=
  { e with rel := rel, premises := e.premises ++ [p] }

end Elimination

/-- The term that names an edge: the one that names its proof, or else a new constant. -/
def edgeName (p : Proof) : Search Term :=
  match p.witness? with
  | some w => pure w
  | none => freshConst "e"

/-- Takes one pair of arguments through a relation that is no converse. -/
def eliminateStraight (prove : Prover) (goal : Goal) (e : Elimination) (a b : Term)
    (k : Elimination → Search ρ) : Search ρ := do
  match (← subst).view e.rel with
  | .arrow dom cod => k (e.owing cod (.related dom a b))
  | .dependent edge family =>
    prove ρ (.related edge a b) fun p => do
      let name ← edgeName p
      let rel ← require ((← subst).family? family a b name) (gap goal)
      k (e.via rel p)
  -- equal functions take equal arguments to equal results, and everything is related by `top`
  | .equality => k (e.owing e.rel (.related e.rel a b))
  | .top => k e
  | .placeholder _ =>
    let dom ← freshVar
    let cod ← freshVar
    if ← unify e.rel (.arrow dom cod) then k (e.owing cod (.related dom a b)) else gap goal
  | _ => gap goal

/-- `eliminate`: takes one pair of arguments through a relation. A converse takes the swapped pair
through the relation itself and gives the converse of the result; equality and the full relation are
their own converses. -/
def eliminate (prove : Prover) (goal : Goal) (e : Elimination) (a b : Term)
    (k : Elimination → Search ρ) : Search ρ := do
  let σ ← subst
  match σ.view e.rel with
  | .flip inner =>
    match σ.view inner with
    | .equality | .top => eliminateStraight prove goal { e with rel := inner } a b k
    | .arrow _ _ | .dependent _ _ | .placeholder _ =>
      eliminateStraight prove goal { e with rel := inner } b a fun e =>
        k { e with rel := e.rel.flip }
    | _ => gap goal
  | _ => eliminateStraight prove goal e a b k

/-- `eliminate_all`: takes pairs of arguments through a relation from left to right. -/
def eliminateAll (prove : Prover) (goal : Goal) (k : Elimination → Search ρ) :
    List (Term × Term) → Elimination → Search ρ
  | [], e => k e
  | (a, b) :: rest, e =>
    eliminate prove goal e a b fun e => eliminateAll prove goal k rest e

/-- `bridge`: gets from the relation reached to the one wanted, at once if they look the same, else
by each proof of the inclusion. -/
def bridge (prove : Prover) (goal : Goal) (wanted : Term) (e : Elimination)
    (k : Elimination → Search ρ) : Search ρ := do
  let σ ← subst
  -- the views are compared one layer deep, with bound placeholders below left as they are
  if σ.view e.rel = σ.view wanted then k e
  else
    bridging (prove ρ (.subrel e.rel wanted)) (fun p => k (e.via wanted p))
      fun crossed why => if why.isExhausted || crossed then fail why else gap goal

/-! ## Monotonicity -/

/-- `complete`: uses a candidate for a goal whose side has so many arguments. -/
def useCandidate (prove : Prover) (goal : Goal) (arity : Nat)
    (emit : Reduction → Search ρ) (c : Candidate) : Search ρ := do
  let .related rel left right := goal | noRule goal
  let extra := arity - c.consumed
  let xs ← splitSide goal left c.left extra
  let ys ← splitSide goal right c.right extra
  eliminateAll prove goal
    (fun e => bridge prove goal rel e fun e =>
      emit { premises := e.premises, subgoals := e.subgoals })
    (xs.zip ys) { rel := c.rel, premises := [c.proof] }

def tryBatches (T : Theory) (prove : Prover) (goal : Goal) (side : Side) (head : String)
    (arity : Nat) (emit : Reduction → Search ρ) : List Batch → Option Failure → Search ρ
  | [], best => failBest (noCandidate goal) best
  | batch :: rest, best => do
    let found ← probe T side head batch
    tryEach T (useCandidate prove goal arity emit)
      (fun best => tryBatches T prove goal side head arity emit rest best) found best

/-- `mono_left` and `mono_right`: proves a goal by the facts and hypotheses for one of its sides.
The right side is used only if the left one is a placeholder. -/
def monotone (T : Theory) (prove : Prover) (side : Side) (goal : Goal)
    (emit : Reduction → Search ρ) : Search ρ := do
  let .related _ left right := goal | noRule goal
  let σ ← subst
  if side = .right ∧ (σ.walk left).asVar? = none then noRule goal
  else
    let .app head args := σ.walk (side.pick left right) | noCandidate goal
    tryBatches T prove goal side head args.length emit
      (Batch.plan (T.registry.parameters.get? head) args.length) none

end Search

end Monotonicity
