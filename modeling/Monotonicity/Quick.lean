/-!
# Quick evaluation

Definitions are written here to be reasoned about. Where such a definition would take too long to
run, `quickly` has a running program compute its value in another way, which has to be shown to give
the same. To the logic, and so to proofs and to evaluation by the kernel, `quickly` is the
definition itself.

The two are told apart by the address of an object, which a program finds to be other than 0 and the
logic takes to be 0. Nothing else may depend on an address, unless it is of a type with one value at
most, and `Exactly` makes such a type of any value: all ways to come by it are the same.
-/

namespace Monotonicity

abbrev Exactly {β : Type} (value : β) : Type := { result : β // result = value }

instance {β : Type} {value : β} : Subsingleton (Exactly value) :=
  ⟨fun a b => Subtype.ext (a.property.trans b.property.symm)⟩

/-- A value of a type that has one at most may depend on the address of an object. -/
@[inline] def withAddress {α β : Type} [Subsingleton β] (object : α) (k : USize → β) : β :=
  withPtrAddr object k fun _ _ => Subsingleton.elim _ _

/-- `plain ()`, which a running program computes by `quick`. -/
@[inline] def quickly {α β : Type} (object : α) (plain : Unit → β)
    (quick : Unit → Exactly (plain ())) : β :=
  withPtrAddr object (fun address => if address = 0 then plain () else (quick ()).val)
    fun u v => by
      have same (w : USize) : (if w = 0 then plain () else (quick ()).val) = plain () := by
        split
        · rfl
        · exact (quick ()).property
      rw [same u, same v]

@[simp] theorem quickly_eq {α β : Type} (object : α) (plain : Unit → β)
    (quick : Unit → Exactly (plain ())) : quickly object plain quick = plain () := by
  simp [quickly, withPtrAddr]

/-- A test for equality, as a value that a program computes only where it is needed. -/
abbrev Test {α : Type} (a b : α) : Type := { equal : Bool // equal = true ↔ a = b }

/-- Goes on with `same` if two objects are one. Two objects may be equal without being one; then
`other` has to do. -/
@[inline] def ifIdentical {α β : Type} [Subsingleton β] (a b : α) (test : Unit → Test a b)
    (same : a = b → β) (other : Unit → β) : β :=
  withAddress a fun u => withAddress b fun v =>
    if u = v then
      if h : withPtrEq a b (fun _ => (test ()).val) (test ()).property.mpr then
        same ((test ()).property.mp h)
      else other ()
    else other ()

end Monotonicity
