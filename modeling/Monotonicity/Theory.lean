import Monotonicity.Registry
import Monotonicity.Relation.Relator
import Monotonicity.Rule.Basic

/-!
# Theories

All that a search relies on and never changes: what is registered, the rules, and the limits.
-/

namespace Monotonicity

/-- `SolverConfig`: how far a search may go, and what it does with goals that no rule proves. -/
structure Limits where
  maxDepth : Nat := 64
  fuel : Nat := 100000
  /-- Whether goals that nothing proves are put off instead of failing. -/
  deferUnsolved : Bool := false
deriving DecidableEq, Repr

def Relator.rule (r : Relator) : Rule :=
  ⟨r.head ++ "_intro", Rule.intro + 3, .related (.named r.head), .relatorIntro⟩

structure Theory where
  registry : Registry := {}
  rules : List Rule := []
  limits : Limits := {}

namespace Theory

/-- What `with_config` starts from: the standard rules. -/
def standard (limits : Limits) : Theory :=
  { rules := Rule.insertAll Rule.standard [], limits := limits }

def addRule (T : Theory) (rule : Rule) : Theory := { T with rules := rule.insert T.rules }

/-- The step of `install` for one relator: declares it and adds its introduction rule. -/
def addRelator (T : Theory) (r : Relator) : Theory :=
  { T with
    registry := { T.registry with
      variances := T.registry.variances.insert r.head r.variances
      schemes := T.registry.schemes.insert r.head ⟨r.cases⟩ } }.addRule r.rule

def addRelators (T : Theory) : Theory := Relator.all.foldl addRelator T

end Theory

end Monotonicity
