import Monotonicity.Term.Equality
import Std.Data.HashMap

/-!
# Numbered terms

A store (`TermStore`) gives terms numbers of 32 bits (`TermId`). It keeps a node for each term: its
root, with the numbers of the children in the place of the children. `intern` adds a node only if
it is new, under the next number, so equal terms get the same number and comparing terms is
comparing numbers. The counter for the next number has 32 bits as well. After `2 ^ 32` nodes it is
at `0` again, and from then on nodes are overwritten.

Whatever is done with terms is done with their numbers, by going from a number to those of its
children: `maxVar`, `rename`, `resolve` and `write`. No way down is longer than there are numbers,
so they give up after that many steps. That takes nodes that run in a circle, as they may once
numbers are given twice, or bindings that do.
-/

namespace Monotonicity

deriving instance Hashable for Arm

/-- The root of a term, with numbers for its children. -/
inductive Node where
  | var (index : Nat)
  | app (head : String) (args : List UInt32)
  | cases (scrutinee : UInt32) (arms : List (Arm UInt32))
deriving DecidableEq, Hashable, Repr

def Node.children : Node → List UInt32
  | .var _ => []
  | .app _ ids => ids
  | .cases id arms => id :: arms.map (·.body)

def Arm.withBodies {α β : Type} (arms : List (Arm α)) (bodies : List β) : List (Arm β) :=
  arms.zipWith (fun arm body => ⟨arm.ctor, arm.arity, body⟩) bodies

/-- `TermStore`: nodes kept once each, by their numbers in `nodes` and with their numbers in `ids`.
-/
structure Store where
  nodes : Array Node := #[]
  ids : Std.HashMap Node UInt32 := {}
  /-- `next_id`: the number of the next node; behind the last number comes the first one again. -/
  next : UInt32 := 0
  /-- The numbers of the terms that were put in as a whole, so that a subterm that stands in many
  places is gone through once. -/
  known : Std.HashMap Term UInt32 := {}

namespace Store

/-- `resolve`: the node under a number. -/
def node? (s : Store) (id : UInt32) : Option Node := s.nodes[id.toNat]?

def count (s : Store) : Nat := s.ids.size

/-- Keeps a node under the next number. -/
def add (s : Store) (n : Node) : UInt32 × Store :=
  let id := s.next
  let blanks := Array.replicate (id.toNat + 1 - s.nodes.size) (Node.var 0)
  (id, { s with
    nodes := (s.nodes ++ blanks).setIfInBounds id.toNat n
    ids := s.ids.insert n id
    next := id + 1 })

/-- `intern`: the number of a node, which is added if it is new. -/
def intern (s : Store) (n : Node) : UInt32 × Store :=
  match s.ids[n]? with
  | some id => (id, s)
  | none => s.add n

/-! ## Putting terms in -/

def remember (t : Term) : UInt32 × Store → UInt32 × Store
  | (id, s) => (id, { s with known := s.known.insert t id })

mutual
/-- The number of a term; the nodes of its subterms and its own are added as needed. -/
def put (t : Term) (s : Store) : UInt32 × Store :=
  match s.known[t]? with
  | some id => (id, s)
  | none =>
    match t with
    | .var i => remember t (s.intern (.var i))
    | .app head args =>
      let (ids, s) := putAll args s
      remember t (s.intern (.app head ids))
    | .cases scrutinee arms =>
      let (id, s) := put scrutinee s
      let (ids, s) := putArms arms s
      remember t (s.intern (.cases id ids))

def putAll (ts : List Term) (s : Store) : List UInt32 × Store :=
  match ts with
  | [] => ([], s)
  | t :: ts =>
    let (id, s) := put t s
    let (ids, s) := putAll ts s
    (id :: ids, s)

def putArms (arms : List (Arm Term)) (s : Store) : List (Arm UInt32) × Store :=
  match arms with
  | [] => ([], s)
  | ⟨c, n, t⟩ :: arms =>
    let (id, s) := put t s
    let (ids, s) := putArms arms s
    (⟨c, n, id⟩ :: ids, s)
end

/-! ## From numbers to numbers -/

/-- `apply`: extends the spine of an application. -/
def extend (id : UInt32) (extra : List UInt32) (s : Store) : Option (UInt32 × Store) :=
  match s.node? id with
  | some (.app head ids) => some (s.intern (.app head (ids ++ extra)))
  | _ => none

/-- `prefix`: the first arguments of an application, if it has so many. -/
def take (id : UInt32) (length : Nat) (s : Store) : Option (UInt32 × Store) :=
  match s.node? id with
  | some (.app head ids) =>
    if length ≤ ids.length then some (s.intern (.app head (ids.take length))) else none
  | _ => none

/-- Does the same for every number of a list. -/
def each (run : UInt32 → Store → Option (UInt32 × Store)) :
    List UInt32 → Store → Option (List UInt32 × Store)
  | [], s => some ([], s)
  | id :: ids, s => do
    let (id, s) ← run id s
    let (ids, s) ← each run ids s
    return (id :: ids, s)

/-- The largest placeholder index below a number, or the one met before. -/
def maxVarFor (s : Store) : Nat → UInt32 → Option Nat → Option (Option Nat)
  | 0, _, _ => none
  | room + 1, id, largest =>
    match s.node? id with
    | some (.var i) => some (some (largest.elim i (max i)))
    -- the last child is taken first, as from a stack
    | some n => n.children.foldrM (maxVarFor s room) largest
    | none => some largest

/-- `max_var` -/
def maxVar (s : Store) (id : UInt32) : Option (Option Nat) := s.maxVarFor UInt32.size id none

def renameFor (offset : Nat) : Nat → UInt32 → Store → Option (UInt32 × Store)
  | 0, _, _ => none
  | room + 1, id, s =>
    if offset = 0 then some (id, s)
    else match s.node? id with
      | some (.var i) =>
        if i + offset < indexBound then some (s.intern (.var (i + offset))) else none
      | some (.app head ids) =>
        if ids.isEmpty then some (id, s)
        else do
          let (ids, s) ← each (renameFor offset room) ids s
          return s.intern (.app head ids)
      | some (.cases c arms) => do
        let (c, s) ← renameFor offset room c s
        let (bodies, s) ← each (renameFor offset room) (arms.map (·.body)) s
        return s.intern (.cases c (Arm.withBodies arms bodies))
      | none => some (id, s)

/-- `rename`: the number of the term with every placeholder shifted. Constants and terms that are
shifted by nothing keep their numbers. -/
def rename (offset : Nat) (id : UInt32) (s : Store) : Option (UInt32 × Store) :=
  renameFor offset UInt32.size id s

def walkFor (s : Store) (bindings : List (Nat × UInt32)) : Nat → UInt32 → Option UInt32
  | 0, _ => none
  | room + 1, id =>
    match s.node? id with
    | some (.var i) =>
      match bindings.lookup i with
      | some id => walkFor s bindings room id
      | none => some id
    | _ => some id

/-- `walk`: follows bindings of placeholders to numbers, unless they run in a circle. -/
def walk (s : Store) (bindings : List (Nat × UInt32)) (id : UInt32) : Option UInt32 :=
  s.walkFor bindings (bindings.length + 1) id

def resolveFor (bindings : List (Nat × UInt32)) : Nat → UInt32 → Store → Option (UInt32 × Store)
  | 0, _, _ => none
  | room + 1, id, s =>
    if bindings.isEmpty then some (id, s)
    else do
      let id ← s.walk bindings id
      match s.node? id with
      | some (.app head ids) =>
        if ids.isEmpty then some (id, s)
        else do
          let (ids', s) ← each (resolveFor bindings room) ids s
          if ids' = ids then some (id, s) else some (s.intern (.app head ids'))
      | some (.cases c arms) => do
        let (c, s) ← resolveFor bindings room c s
        let (bodies, s) ← each (resolveFor bindings room) (arms.map (·.body)) s
        return s.intern (.cases c (Arm.withBodies arms bodies))
      | _ => some (id, s)

/-- `apply_subst`: the number of the term with every bound placeholder replaced. An application
whose arguments come out as they were keeps its number; a case analysis is looked up again. -/
def resolve (bindings : List (Nat × UInt32)) (id : UInt32) (s : Store) : Option (UInt32 × Store) :=
  resolveFor bindings UInt32.size id s

def writeAll (write : String → UInt32 → Option String) (out : String) : List UInt32 → Option String
  | [] => some out
  | id :: ids => do writeAll write (← write (out ++ " ") id) ids

def writeArms (write : String → UInt32 → Option String) (out : String) :
    List (Arm UInt32) → Option String
  | [] => some out
  | ⟨c, n, id⟩ :: arms => do
    let out ← write (out ++ " [" ++ c ++ "/" ++ toString n ++ " => ") id
    writeArms write (out ++ "]") arms

def writeFor (s : Store) : Nat → String → UInt32 → Option String
  | 0, _, _ => none
  | room + 1, out, id => do
    match ← s.node? id with
    | .var i => return out ++ "?" ++ toString i
    | .app head ids =>
      if ids.isEmpty then return out ++ head
      else return (← writeAll (writeFor s room) (out ++ "(" ++ head) ids) ++ ")"
    | .cases c arms =>
      let out ← writeFor s room (out ++ "(match ") c
      return (← writeArms (writeFor s room) out arms) ++ ")"

/-- `format_term`: writes the term under a number behind `out`. -/
def write (s : Store) (out : String) (id : UInt32) : Option String := s.writeFor UInt32.size out id

end Store

end Monotonicity
