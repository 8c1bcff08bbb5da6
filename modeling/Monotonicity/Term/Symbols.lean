import Monotonicity.Term.Basic

/-!
# Symbols

Symbols are names. A pool remembers every name mentioned so far and hands out names for the
constants that proof search introduces: the `n`-th one made from a hint is `hint#n`, with one
count for all hints. The mark `#` tells such a name from an ordinary one, but nothing keeps a
caller from writing it, and then both are the same symbol.
-/

namespace Monotonicity

/-- `SymbolStore`: the names in use, latest first, and how many were minted. -/
structure Symbols where
  names : List String := []
  minted : Nat := 0
deriving Repr

namespace Symbols

def mark : Char := '#'

/-- `is_fresh`: whether a name carries the mark of a minted one. -/
def isMarked (name : String) : Bool := name.toList.contains mark

/-- `get`: whether a name was mentioned before. -/
def knows (σ : Symbols) (name : String) : Bool := σ.names.contains name

def mention (σ : Symbols) (names : List String) : Symbols := { σ with names := names ++ σ.names }

def minting (hint : String) (n : Nat) : String := hint ++ "#" ++ toString n

/-- `fresh`: mints a name from a hint. The name is not looked up among those in use. -/
def mint (σ : Symbols) (hint : String) : String × Symbols :=
  let name := minting hint σ.minted
  (name, { names := name :: σ.names, minted := σ.minted + 1 })

end Symbols

end Monotonicity
