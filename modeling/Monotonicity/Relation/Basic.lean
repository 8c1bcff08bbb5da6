import Monotonicity.Substitution.Basic

/-!
# Relations

Relations are terms. Seven head symbols are reserved: equality, the full and the empty relation,
the arrow and its dependent form, the converse, and the family that ignores its indices. Every other
term in relation position is a named relation with its arguments, a placeholder, or a case analysis,
on which nothing is known.

`View` is a relation seen one layer deep under a substitution, after pairs of converses have been
cancelled.
-/

namespace Monotonicity

namespace Reserved

def equality : String := "@eq"

def top : String := "@top"

def bottom : String := "@bottom"

/-- `arrow`: related arguments go to related results. -/
def arrow : String := "@arrow"

/-- `forall`: the arrow whose result relation depends on how the arguments are related. -/
def dependent : String := "@forall"

def flip : String := "@flip"

/-- `const_family`: the family that ignores its indices. -/
def const : String := "@const"

/-- The head symbols for which `is_reserved` holds. -/
def all : List String := [equality, top, bottom, arrow, dependent, flip, const]

end Reserved

namespace Term

def equality : Term := .app Reserved.equality []

def arrow (dom cod : Term) : Term := .app Reserved.arrow [dom, cod]

def flip (rel : Term) : Term := .app Reserved.flip [rel]

/-- Takes the converses off the outside of a term; `odd` says whether their number, counted from
the given parity, is odd. -/
def unflip (odd : Bool) : Term → Bool × Term
  | .app head [rel] => if head = Reserved.flip then rel.unflip (!odd) else (odd, .app head [rel])
  | t => (odd, t)

end Term

/-- How a combinator's argument behaves under inclusion. -/
inductive Variance where
  | covariant
  | contravariant
  | invariant
deriving DecidableEq, Repr

/-- `Relation`: a relation seen one layer deep. -/
inductive View where
  | equality
  | top
  | bottom
  | arrow (dom cod : Term)
  | dependent (edge family : Term)
  | flip (rel : Term)
  | named (head : String) (args : List Term)
  | placeholder (index : Nat)
  | stuck
deriving DecidableEq, Repr

inductive Shape where
  | equality
  | top
  | bottom
  | arrow
  | dependent
  | flip
  | named (head : String)
  | placeholder
  | stuck
deriving DecidableEq, Repr

namespace View

def shape : View → Shape
  | .equality => .equality
  | .top => .top
  | .bottom => .bottom
  | .arrow _ _ => .arrow
  | .dependent _ _ => .dependent
  | .flip _ => .flip
  | .named head _ => .named head
  | .placeholder _ => .placeholder
  | .stuck => .stuck

/-- The view of a relation by its head alone. A reserved head with the wrong number of arguments is
an ordinary name. -/
def ofHead : Term → View
  | .var i => .placeholder i
  | .cases _ _ => .stuck
  | .app head args =>
    match args with
    | [] =>
      if head = Reserved.equality then .equality
      else if head = Reserved.top then .top
      else if head = Reserved.bottom then .bottom
      else .named head []
    -- a constant family is no relation: its head is a name like any other here
    | [a] => if head = Reserved.flip then .flip a else .named head [a]
    | [a, b] =>
      if head = Reserved.arrow then .arrow a b
      else if head = Reserved.dependent then .dependent a b
      else .named head [a, b]
    | _ => .named head args

def text : View → String
  | .equality => "Equality"
  | .top => "Top"
  | .bottom => "Bottom"
  | .arrow a b => "Arrow(" ++ a.text ++ ", " ++ b.text ++ ")"
  | .dependent a b => "Forall(" ++ a.text ++ ", " ++ b.text ++ ")"
  | .flip a => "Flip(" ++ a.text ++ ")"
  | .named head args => "Named(" ++ head ++ ", [" ++ ", ".intercalate (args.map (·.text)) ++ "])"
  | .placeholder i => "Placeholder(" ++ toString i ++ ")"
  | .stuck => "Opaque"

end View

def Shape.text : Shape → String
  | .equality => "Equality"
  | .top => "Top"
  | .bottom => "Bottom"
  | .arrow => "Arrow"
  | .dependent => "Forall"
  | .flip => "Flip"
  | .named head => "Named(" ++ head ++ ")"
  | .placeholder => "Placeholder"
  | .stuck => "Opaque"

namespace Subst

/-- Takes the converses off a relation, also those behind at most as many bindings as there are on a
trail. -/
def unflipFor (σ : Subst) : Subst → Bool → Term → Bool × Term
  | .empty, odd, t => t.unflip odd
  | .bind rest _ _, odd, t =>
    match t.unflip odd with
    | (odd, .var i) =>
      match σ.get? i with
      | some u => unflipFor σ rest odd u
      | none => (odd, .var i)
    | core => core

/-- `view`: what a relation looks like, pairs of converses cancelled. -/
def view (σ : Subst) (rel : Term) : View :=
  match σ.unflipFor σ false rel with
  | (true, core) => .flip core
  | (false, core) => .ofHead core

/-- `instantiate_family`: the relation of a family at two indices and their edge. A constant family
gives its relation, any other application is extended by the three; nothing else is a family. -/
def family? (σ : Subst) (family left right edge : Term) : Option Term :=
  match σ.walk family with
  | .app head [rel] =>
    if head = Reserved.const then some rel else some (.app head [rel, left, right, edge])
  | t => t.extend? [left, right, edge]

end Subst

end Monotonicity
