import Monotonicity.Substitution.Basic

/-!
# Budgets

A budget bounds a recursion by a count that is worked out only as far as it is used. To count the
nodes of a term in advance is to go through all of it, which takes far too long where subterms are
shared many times over; a budget of as many units costs nothing until they are spent.
-/

namespace Monotonicity

/-- A count in which the units behind the first are worked out on demand. -/
inductive Budget where
  | spent
  | more (rest : Unit → Budget)

namespace Budget

def length : Budget → Nat
  | .spent => 0
  | .more rest => (rest ()).length + 1

mutual
/-- A unit for every node of a term, and then the given ones. -/
def ofTerm (rest : Budget) : Term → Budget
  | .var _ => .more fun _ => rest
  | .app _ args => .more fun _ => ofTerms rest args
  | .cases s arms => .more fun _ => ofTerm (ofArms rest arms) s

def ofTerms (rest : Budget) : List Term → Budget
  | [] => rest
  | t :: ts => ofTerm (ofTerms rest ts) t

def ofArms (rest : Budget) : List (Arm Term) → Budget
  | [] => rest
  | ⟨_, _, t⟩ :: arms => ofTerm (ofArms rest arms) t
end

/-- A unit for every binding and for every node of the bound terms. -/
def ofSubst : Subst → Budget
  | .empty => .spent
  | .bind σ _ t => .more fun _ => ofTerm (ofSubst σ) t

mutual
theorem length_ofTerm (rest : Budget) :
    (t : Term) → t.vars.length + rest.length ≤ (ofTerm rest t).length
  | .var _ => by simp [Term.vars, ofTerm, length, Nat.add_comm]
  | .app _ args => by
    have := length_ofTerms rest args
    simp only [Term.vars, ofTerm, length]
    omega
  | .cases s arms => by
    have := length_ofTerm (ofArms rest arms) s
    have := length_ofArms rest arms
    simp only [Term.vars, ofTerm, length, List.length_append]
    omega

theorem length_ofTerms (rest : Budget) :
    (ts : List Term) → (Term.varsAll ts).length + rest.length ≤ (ofTerms rest ts).length
  | [] => by simp [Term.varsAll, ofTerms]
  | t :: ts => by
    have := length_ofTerm (ofTerms rest ts) t
    have := length_ofTerms rest ts
    simp only [Term.varsAll, ofTerms, List.length_append]
    omega

theorem length_ofArms (rest : Budget) :
    (arms : List (Arm Term)) → (Term.varsArms arms).length + rest.length ≤ (ofArms rest arms).length
  | [] => by simp [Term.varsArms, ofArms]
  | ⟨_, _, t⟩ :: arms => by
    have := length_ofTerm (ofArms rest arms) t
    have := length_ofArms rest arms
    simp only [Term.varsArms, ofArms, List.length_append]
    omega
end

end Budget

end Monotonicity
