import Monotonicity.Table
import Monotonicity.Quick
import Monotonicity.Term.Basic
import Monotonicity.Term.Equality
import Monotonicity.Term.Replacement
import Monotonicity.Term.Cache
import Monotonicity.Term.Store
import Monotonicity.Term.Symbols
import Monotonicity.Substitution.Basic
import Monotonicity.Substitution.Budget
import Monotonicity.Substitution.Unification
import Monotonicity.Substitution.Bindings
import Monotonicity.Relation.Basic
import Monotonicity.Goal.Basic
import Monotonicity.Relation.Scheme
import Monotonicity.Relation.Relator
import Monotonicity.Registry
import Monotonicity.Proof
import Monotonicity.Goal.Failure
import Monotonicity.Goal.Obligation
import Monotonicity.Decimal
import Monotonicity.Search.Stats
import Monotonicity.Rule.Script
import Monotonicity.Rule.Basic
import Monotonicity.Theory
import Monotonicity.Search.Basic
import Monotonicity.Search.Introduction
import Monotonicity.Search.Inclusion
import Monotonicity.Search.Candidate
import Monotonicity.Search.CaseSplit
import Monotonicity.Search.Constructor
import Monotonicity.Search.Scripting
import Monotonicity.Search.Solver
import Monotonicity.Query.Solution
import Monotonicity.Query.Transport
import Monotonicity.Query.Engine
import Monotonicity.Session.Command
import Monotonicity.Session.Basic
import Monotonicity.Proofs.Term.Placeholders
import Monotonicity.Proofs.Term.Stable
import Monotonicity.Proofs.Term.Built
import Monotonicity.Proofs.Substitution.Stages
import Monotonicity.Proofs.Substitution.Acyclic
import Monotonicity.Proofs.Substitution.Unifier
import Monotonicity.Proofs.Substitution.Within
import Monotonicity.Proofs.Substitution.Heads
import Monotonicity.Proofs.Relation.Converse
import Monotonicity.Proofs.Relation.Within
import Monotonicity.Proofs.Relation.View
import Monotonicity.Proofs.Relation.Core
import Monotonicity.Proofs.Search.Growth
import Monotonicity.Proofs.Search.Ends
import Monotonicity.Proofs.Search.Contract
import Monotonicity.Proofs.Search.Lockstep
import Monotonicity.Proofs.Search.Course
import Monotonicity.Proofs.Calculus.Basic
import Monotonicity.Proofs.Calculus.Offer
import Monotonicity.Proofs.Calculus.Introduction
import Monotonicity.Proofs.Calculus.Inclusion
import Monotonicity.Proofs.Calculus.CaseSplit
import Monotonicity.Proofs.Calculus.Elimination
import Monotonicity.Proofs.Calculus.Candidate
import Monotonicity.Proofs.Calculus.Replay
import Monotonicity.Proofs.Query.Failure
import Monotonicity.Proofs.Semantics.Interpretation
import Monotonicity.Proofs.Semantics.Inclusion
import Monotonicity.Proofs.Semantics.Order
import Monotonicity.Proofs.Semantics.Valuation
import Monotonicity.Proofs.Semantics.Elimination
import Monotonicity.Proofs.Semantics.Arguments
import Monotonicity.Proofs.Semantics.Ground
import Monotonicity.Proofs.Search.Watch
import Monotonicity.Proofs.Steady.Introduction
import Monotonicity.Proofs.Steady.Inclusion
import Monotonicity.Proofs.Steady.CaseSplit
import Monotonicity.Proofs.Steady.Candidate
import Monotonicity.Proofs.Steady.Library
import Monotonicity.Proofs.Steady.Transport
import Monotonicity.Proofs.Query.Observation
import Monotonicity.Proofs.Query.Scope
import Monotonicity.Proofs.Query.Deferral
import Monotonicity.Proofs.Query.Fuel
import Monotonicity.Proofs.Query.Escape
import Monotonicity.Proofs.Limit.Basic
import Monotonicity.Proofs.Limit.Library
import Monotonicity.Proofs.Limit.Success
import Monotonicity.Proofs.Limit.Calm
import Monotonicity.Proofs.Limit.Cut
import Monotonicity.Proofs.Query.Depth
import Monotonicity.Proofs.Query.Obligation
import Monotonicity.Proofs.Renaming.Term
import Monotonicity.Proofs.Renaming.Substitution
import Monotonicity.Proofs.Renaming.Goal
import Monotonicity.Proofs.Renaming.Search
import Monotonicity.Proofs.Renaming.Rules
import Monotonicity.Proofs.Renaming.Candidate
import Monotonicity.Proofs.Renaming.Library
import Monotonicity.Proofs.Renaming.Solution
import Monotonicity.Proofs.Renaming.Count
import Monotonicity.Proofs.Apart.Trace
import Monotonicity.Proofs.Apart.Search
import Monotonicity.Proofs.Apart.Rules
import Monotonicity.Proofs.Apart.Candidate
import Monotonicity.Proofs.Apart.Library
import Monotonicity.Proofs.Query.Apart
import Monotonicity.Proofs.Query.Shift
import Monotonicity.Proofs.Query.Repeat
import Monotonicity.Proofs.Order.Included
import Monotonicity.Proofs.Order.Complete
import Monotonicity.Proofs.Order.Sound
import Monotonicity.Proofs.Order.Atomic
import Monotonicity.Proofs.Ground.Provable
import Monotonicity.Proofs.Ground.Complete
import Monotonicity.Proofs.Ground.Sound
import Monotonicity.Proofs.Ground.Converse
import Monotonicity.Proofs.Substitution.Traversal
import Monotonicity.Proofs.Substitution.Complete
import Monotonicity.Proofs.Substitution.Worklist
import Monotonicity.Proofs.Substitution.Reached
import Monotonicity.Proofs.Substitution.Bindings
import Monotonicity.Proofs.Substitution.Rollback
import Monotonicity.Proofs.Substitution.Resolution
import Monotonicity.Proofs.Registry.Index
import Monotonicity.Proofs.Registry.Pruning
import Monotonicity.Proofs.Relation.Likeness
import Monotonicity.Proofs.CaseSplit.Names
import Monotonicity.Proofs.CaseSplit.Pairs
import Monotonicity.Proofs.CaseSplit.Domain
import Monotonicity.Proofs.CaseSplit.Sufficient
import Monotonicity.Proofs.Account.Tally
import Monotonicity.Proofs.Account.Search
import Monotonicity.Proofs.Account.Solver
import Monotonicity.Proofs.Account.Library
import Monotonicity.Proofs.Account.Transport
import Monotonicity.Proofs.Query.Statistics
import Monotonicity.Proofs.Query.Bindings
import Monotonicity.Proofs.Limit.Blame
import Monotonicity.Proofs.Transport.Plan
import Monotonicity.Proofs.Transport.Coherent
import Monotonicity.Proofs.Transport.Pairing
import Monotonicity.Proofs.Ground.Decision
import Monotonicity.Proofs.Ground.Constants
import Monotonicity.Proofs.Ground.Lists
import Monotonicity.Proofs.Relation.Parity
import Monotonicity.Proofs.Search.Splitting
import Monotonicity.Proofs.Term.Readback
import Monotonicity.Proofs.Term.Interning
import Monotonicity.Proofs.Term.Numbers
import Monotonicity.Proofs.Term.Numbering
import Monotonicity.Proofs.Query.Freshness
import Monotonicity.Proofs.Rule.Order
import Monotonicity.Proofs.Session.Rules
