import Monotonicity.Query.Engine

/-!
# Commands and replies

What can be asked of a session, and what it answers. Replies hold the library's own values; how they
are written down is for whoever asked.
-/

namespace Monotonicity

/-- What a query shows besides its solution. -/
structure Shown where
  /-- Rules whose use in the proof is asked for. -/
  uses : List String := []
  binding : Option (List Nat) := none
  report : Bool := false
deriving Repr

inductive FieldExpr where
  | arg (position : Nat)
  | fixed (rel : Expr)
  | recursive
deriving Repr

structure CaseExpr where
  left : String
  right : String
  fields : List FieldExpr
deriving Repr

/-- How a rule of the user's own works. -/
inductive RuleBody where
  /-- By the relators' introduction rule. -/
  | relator
  | script (body : List Action)
  | choice (alternatives : List Alternative)
deriving Repr

/-- The method of a rule that was described under locals. -/
def RuleBody.method (locals : Locals) : RuleBody → Method
  | .relator => .relatorIntro
  | .script body => .script locals body
  | .choice alternatives => .choice locals alternatives

/-- What a session can be told to do. Terms are expressions over the session's locals. -/
inductive Command where
  -- Registration
  | limits (limits : Limits)
  | relators
  | bindLocal (name : String) (term : Expr)
  | combinator (head : String) (variances : List Variance)
  | fact (rel left right witness : Expr)
  | selfFact (rel term witness : Expr)
  | inclusion (lesser greater witness : Expr)
  | parameters (head : String) (count : Nat)
  | scheme (head : String) (cases : List CaseExpr)
  | computation (term value : Expr)
  | rule (name : String) (priority : Int) (pattern : Pattern) (body : RuleBody)
  -- Queries
  | solve (goal : GoalExpr) (shown : Shown)
  | reify
  | discharge (index : Nat) (assume : Bool) (shown : Shown)
  | transport (lifted edge : Nat) (term value : Expr) (shown : Shown)
  -- The registry
  | lookupFacts (side : Side) (head : String) (arity : Option Nat)
  | getFact (id : Nat)
  | getInclusion (id : Nat)
  | getHead (head : String)
  | getCase (head ctor : String)
  | getComputation (term : Expr)
  | counts
  | listRules
  | relator (relator : Relator) (args : List Expr)
  | fieldRelation (field : FieldExpr) (whole : Expr) (args : List Expr)
  -- Symbols
  | symbol (name : String)
  | mint (hint : String)
  -- Terms and goals
  | term (term : Expr)
  | same (a b : Expr)
  | goal (goal : GoalExpr)
  | apply (term : Expr) (args : List Expr) (name : Option String)
  | take (term : Expr) (length : Nat) (name : Option String)
  | rename (term : Expr) (offset : Nat) (name : Option String)
  -- Relations
  | view (rel : Expr)
  | family (family left right edge : Expr)
  | fits (goal : GoalExpr) (patterns : List Pattern)
  -- The substitution on the desk
  | unify (a b : Expr)
  | bind (index : Nat) (term : Expr)
  | lookup (index : Nat)
  | occurs (index : Nat) (term : Expr)
  | walk (term : Expr)
  | substitute (term : Expr)
  | checkpoint (name : String)
  | rollback (name : String)
  -- The obligations on the desk
  | defer (goal : GoalExpr) (hyps : List HypExpr)
  | truncate (length : Nat)
  | snapshot
  | close
  | conj (goals : List GoalExpr) (closed : Bool)
  -- Proofs, statistics and failures
  | proof (proof : ProofExpr) (uses : List String)
  | stats (stats : Stats)
  | failure (failure : Failure)
deriving Repr

inductive Reply where
  | done
  | limits (limits : Limits)
  | ruleCount (count : Nat)
  | id (id : Nat)
  | solution (solution : Solution) (shown : Shown) (log : List String)
  | nothing
  | pending (items : List Pending)
  | transported (result : Transported) (shown : Shown) (log : List String)
  | ids (ids : List Nat)
  | fact (fact : Fact)
  | inclusion (inclusion : Inclusion)
  | head (params : Option Nat) (variances : Option (List Variance))
      (cases : Option (List CasePair)) (reserved : Bool)
  | casesFor (left right : Option CasePair)
  | value (term : Option Term)
  | counts (facts inclusions rules : Nat)
  | rules (rules : List (String × Int))
  | symbol (known : Bool) (name : String) (marked reserved : Bool)
  | minted (name : String) (marked : Bool)
  | term (term : Term)
  | same (same : Bool)
  | goal (goal resolved : Goal)
  | built (term : Option Term)
  | view (view : View)
  | relation (rel : Option Term)
  | fits (verdicts : List Bool)
  | unified (ok : Bool) (subst : Subst)
  | subst (subst : Subst)
  | lookup (term : Option Term)
  | occurs (occurs : Bool)
  | substituted (term : Term) (same : Bool)
  | length (length : Nat)
  | deferred (position length : Nat)
  | delayed (length : Nat)
  | conj (conj : Conj)
  | proof (proof : Proof) (uses : List String)
  | report (text : String)
  | failure (why : Failure) (log : List String)

inductive Refusal where
  /-- It makes no sense in this session. -/
  | malformed
  | fault (fault : Fault)
deriving DecidableEq, Repr

end Monotonicity
