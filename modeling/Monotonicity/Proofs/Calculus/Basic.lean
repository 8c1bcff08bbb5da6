import Monotonicity.Proofs.Relation.View
import Monotonicity.Proofs.Search.Ends
import Monotonicity.Search.Solver

/-!
# The calculus of proofs

The rules as a system of inference. `Derives` says that a proof tree is a derivation of a goal from
hypotheses. It speaks of the final substitution and takes every goal and hypothesis at it; no search
and no backtracking appears. What the final substitution cannot show any more, because the search
looked at a term before it was filled in, is said of a goal or a relation of which the one at hand
is an instance. A case split looks at the relation that the proof for the scrutinees has settled on,
so that this proof has to be a derivation already at the bindings at which the split is made.

A step is the application of a rule to an instance of a goal that fits the rule's pattern. Its
premises are those that `Prescribes` lists for the rule's method, in order: leaves, and derivations
of goals under further hypotheses.

The constants that a step introduces are numbered. In `Derives T σ w n hyps goal p` every constant
introduced inside `p` has a number from `n` on, and a premise in which new constants stand starts
behind their numbers, so that a new constant is new indeed.
-/

namespace Monotonicity

/-- What a derivation speaks of at some moment: the bindings, and at these the obligations put off
and the hypotheses. -/
structure Moment where
  subst : Subst
  delayed : List Pending
  hyps : List Hypothesis

/-- The moment is not after the one with the bindings, obligations and hypotheses given. -/
structure Moment.Before (e : Moment) (σ : Subst) (w : List Pending) (hyps : List Hypothesis) :
    Prop where
  subst : e.subst ≤ σ
  delayed : e.delayed.map (·.resolve σ) <+: w
  hyps : e.hyps.map (·.resolve σ) = hyps

/-- One premise of a step. -/
inductive Premise where
  | leaf (p : Proof)
  /-- A derivation of a goal under further hypotheses, with new constants numbered from `since` on.
  -/
  | derived (since : Nat) (further : List Hypothesis) (goal : Goal) (p : Proof)
  /-- A derivation of an instance of `asked` that was one, of the instance of then, at an earlier
  moment. -/
  | settled (early : Moment) (since : Nat) (asked : Goal) (p : Proof)

def Premise.proof : Premise → Proof
  | .leaf p => p
  | .derived _ _ _ p => p
  | .settled _ _ _ p => p

/-- The premises are derivations of the given goals, in order. -/
def Owed (since : Nat) (goals : List Goal) (premises : List Premise) : Prop :=
  List.Forall₂ (fun g q => ∃ p, q = .derived since [] g p) goals premises

/-! ## Inclusion of arguments -/

/-- The inclusions between arguments that variances ask for. -/
def argumentGoals : List (Term × Term × Variance) → List Goal
  | [] => []
  | (a, b, .covariant) :: rest => .subrel a b :: argumentGoals rest
  | (a, b, .contravariant) :: rest => .subrel b a :: argumentGoals rest
  | (_, _, .invariant) :: rest => argumentGoals rest

/-- The substitution makes invariant arguments agree. -/
def Agrees (σ : Subst) (arguments : List (Term × Term × Variance)) : Prop :=
  ∀ a b, (a, b, Variance.invariant) ∈ arguments → σ.resolve a = σ.resolve b

/-! ## Case splits -/

/-- The hypotheses on the fields of two constructors, named by constants from number `n` on. -/
inductive FieldsAssumed (whole : Term) (args : List Term) (flipped : Bool) :
    Nat → List (FieldRel × Term × Term) → List Hypothesis → Prop
  | nil {n} : FieldsAssumed whole args flipped n [] []
  | cons {n field x y rel rest hyps} (hrel : field.relation? whole args = some rel)
      (hrest : FieldsAssumed whole args flipped (n + 1) rest hyps) :
      FieldsAssumed whole args flipped n ((field, x, y) :: rest)
        (⟨rel, if flipped then y else x, if flipped then x else y, .minting "h" n⟩ :: hyps)

/-- The cases of a scheme for two lists of arms, with constants numbered from the first number up to
the second. -/
inductive SchemeCases (rel whole : Term) (args : List Term) (flipped : Bool)
    (arms arms' : List (Arm Term)) : Nat → List CasePair → List Case → Nat → Prop
  | nil {n} : SchemeCases rel whole args flipped arms arms' n [] [] n
  | cons {n m k pair rest arm arm' hyps left right cases}
      (hk : pair.fields.length = k)
      (harm : armFor? arms (if flipped then pair.right else pair.left) = some arm)
      (harm' : armFor? arms' (if flipped then pair.left else pair.right) = some arm')
      (harity : arm.arity = k ∧ arm'.arity = k)
      (hfields : FieldsAssumed whole args flipped (n + k + k)
        (pair.fields.zip ((Term.mintings "x" n k).zip (Term.mintings "y" (n + k) k))) hyps)
      (hleft : applyArm? arm.body (Term.mintings "x" n k) = some left)
      (hright : applyArm? arm'.body (Term.mintings "y" (n + k) k) = some right)
      (hrest : SchemeCases rel whole args flipped arms arms' (n + k + k + k) rest cases m) :
      SchemeCases rel whole args flipped arms arms' n (pair :: rest)
        (⟨hyps, .related rel left right⟩ :: cases) m

/-- The cases for equal scrutinees: the same arm on both sides, with the same fields. -/
inductive AlignedCases (rel : Term) (arms' : List (Arm Term)) :
    Nat → List (Arm Term) → List Case → Nat → Prop
  | nil {n} : AlignedCases rel arms' n [] [] n
  | cons {n m arm arm' rest left right cases}
      (harm' : armFor? arms' arm.ctor = some arm') (harity : arm'.arity = arm.arity)
      (hleft : applyArm? arm.body (Term.mintings "x" n arm.arity) = some left)
      (hright : applyArm? arm'.body (Term.mintings "x" n arm.arity) = some right)
      (hrest : AlignedCases rel arms' (n + arm.arity) rest cases m) :
      AlignedCases rel arms' n (arm :: rest) (⟨[], .related rel left right⟩ :: cases) m

/-- The cases for pairs of arms about which nothing is known. A pair of which one body cannot be
applied has none. -/
inductive PairCases (rel : Term) : Nat → List (Arm Term × Arm Term) → List Case → Nat → Prop
  | nil {n} : PairCases rel n [] [] n
  | cons {n m arm arm' rest left right cases}
      (hleft : applyArm? arm.body (Term.mintings "x" n arm.arity) = some left)
      (hright : applyArm? arm'.body (Term.mintings "y" (n + arm.arity) arm'.arity) = some right)
      (hrest : PairCases rel (n + arm.arity + arm'.arity) rest cases m) :
      PairCases rel n ((arm, arm') :: rest) (⟨[], .related rel left right⟩ :: cases) m
  | skip {n m arm arm' rest cases}
      (hnone : applyArm? arm.body (Term.mintings "x" n arm.arity) = none ∨
        applyArm? arm'.body (Term.mintings "y" (n + arm.arity) arm'.arity) = none)
      (hrest : PairCases rel (n + arm.arity + arm'.arity) rest cases m) :
      PairCases rel n ((arm, arm') :: rest) cases m

/-- The scheme of a relation as it is seen through a substitution, with the relation that has it,
its arguments, and whether it stands under a converse. -/
def Theory.schemeFor? (T : Theory) (υ : Subst) (rel : Term) :
    Option (Scheme × Term × List Term × Bool) :=
  match υ.view rel with
  | .named head args => (T.registry.schemes.get? head).map (·, υ.resolve rel, args, false)
  | .flip inner =>
    match υ.view inner with
    | .named head args => (T.registry.schemes.get? head).map (·, υ.resolve inner, args, true)
    | _ => none
  | _ => none

/-- The cases for scrutinees that are related as it is seen through a substitution. -/
inductive Splits (T : Theory) (υ : Subst) (rel scrutinees : Term) (arms arms' : List (Arm Term)) :
    Nat → List Case → Nat → Prop
  | aligned {n cases m} (h : υ.view scrutinees = .equality)
      (hcases : AlignedCases rel arms' n arms cases m) :
      Splits T υ rel scrutinees arms arms' n cases m
  | scheme {n cases m scheme whole args flipped}
      (h : T.schemeFor? υ scrutinees = some (scheme, whole, args, flipped))
      (hcases : SchemeCases rel whole args flipped arms arms' n scheme.cases cases m) :
      Splits T υ rel scrutinees arms arms' n cases m
  | pairs {n cases m} (h : υ.view scrutinees ≠ .equality) (h' : T.schemeFor? υ scrutinees = none)
      (hcases : PairCases rel n (Search.allPairs arms arms') cases m) :
      Splits T υ rel scrutinees arms arms' n cases m

/-! ## Candidates -/

/-- A leaf that may be used for a side with this head, with what it relates and how many arguments
its own side has. -/
inductive Proposes (T : Theory) (σ : Subst) (hyps : List Hypothesis) (side : Side) (head : String) :
    Proof → Term → Term → Term → Nat → Prop
  | fact {id offset f args} {fact : Fact} (hfact : T.registry.facts[id]? = some fact)
      (hside : fact.side side = .app f args) :
      Proposes T σ hyps side head (.fact id (fact.rename offset).witness)
        (σ.resolve (fact.rename offset).rel) (σ.resolve (fact.rename offset).left)
        (σ.resolve (fact.rename offset).right) args.length
  | hypothesis {i : Nat} {args} {h : Hypothesis} (hh : hyps[i]? = some h)
      (hside : side.pick h.left h.right = .app head args) :
      Proposes T σ hyps side head (.hypothesis h.witness) h.rel h.left h.right args.length

/-- A relation takes the pair `a`, `b` of arguments to another relation. This costs derivations of
edges and leaves goals on the arguments. -/
inductive Straight (σ : Subst) :
    Nat → Term → Term → Term → Nat → Term → List Premise → List Goal → Prop
  | arrow {n rel a b dom cod} (h : rel.view = .arrow dom cod) :
      Straight σ n rel a b n cod [] [.related dom a b]
  /-- The edge is named by its proof. -/
  | edge {n rel a b edge family p w rel'} (h : rel.view = .dependent edge family)
      (hw : p.witness? = some w)
      (hrel : Subst.empty.family? family a b (σ.resolve w) = some rel') :
      Straight σ n rel a b n rel' [.derived n [] (.related edge a b) p] []
  /-- The edge is named by a new constant. -/
  | newEdge {n m rel a b edge family p rel'} (h : rel.view = .dependent edge family)
      (hw : p.witness? = none) (hm : n ≤ m)
      (hrel : Subst.empty.family? family a b (.minting "e" m) = some rel') :
      Straight σ n rel a b (m + 1) rel' [.derived n [] (.related edge a b) p] []
  | equality {n rel a b} (h : rel.view = .equality) :
      Straight σ n rel a b n rel [] [.related rel a b]
  | top {n rel a b} (h : rel.view = .top) : Straight σ n rel a b n rel [] []

/-- The same for relations that may be converses. -/
inductive Passes (σ : Subst) :
    Nat → Term → Term → Term → Nat → Term → List Premise → List Goal → Prop
  | straight {n rel a b m rel' edges owed} (h : Straight σ n rel a b m rel' edges owed) :
      Passes σ n rel a b m rel' edges owed
  /-- Equality and the full relation are their own converses. -/
  | symmetric {n rel inner a b m rel' edges owed} (hrel : rel.view = .flip inner)
      (hinner : inner.view = .equality ∨ inner.view = .top)
      (h : Straight σ n inner a b m rel' edges owed) : Passes σ n rel a b m rel' edges owed
  | converse {n rel inner a b m rel' edges owed} (hrel : rel.view = .flip inner)
      (hinner : inner.view.shape = .arrow ∨ inner.view.shape = .dependent)
      (h : Straight σ n inner b a m rel' edges owed) : Passes σ n rel a b m rel'.flip edges owed

/-- The same for pairs of arguments from left to right. -/
inductive Eliminates (σ : Subst) :
    Nat → Term → List (Term × Term) → Nat → Term → List Premise → List Goal → Prop
  | nil {n rel} : Eliminates σ n rel [] n rel [] []
  | cons {n m m' l rel rel' rel'' a b rest edges edges' owed owed'}
      (h : Passes σ n rel a b m rel' edges owed) (hm : m ≤ m')
      (hrest : Eliminates σ m' rel' rest l rel'' edges' owed') :
      Eliminates σ n rel ((a, b) :: rest) l rel'' (edges ++ edges') (owed ++ owed')

/-- From the relation reached to the one wanted: nothing is needed if they looked the same when they
were compared, else a derivation of the inclusion. -/
inductive Bridges (σ : Subst) (n : Nat) (rel wanted : Term) : List Premise → Prop
  | same {υ r w} (hυ : υ ≤ σ) (hr : σ.resolve r = rel) (hw : σ.resolve w = wanted)
      (h : υ.view r = υ.view w) : Bridges σ n rel wanted []
  | crossed {υ r w p} (hυ : υ ≤ σ) (hr : σ.resolve r = rel) (hw : σ.resolve w = wanted)
      (h : υ.view r ≠ υ.view w) : Bridges σ n rel wanted [.derived n [] (.subrel rel wanted) p]

/-! ## Steps -/

/-- The premises that a method asks for when it is applied to a goal of which an instance is to be
proved. New constants are numbered from `n` on; `w` are the obligations put off. -/
inductive Prescribes (T : Theory) (σ : Subst) (w : List Pending) (n : Nat)
    (hyps : List Hypothesis) : Method → Goal → List Premise → Prop
  | top {goal} : Prescribes T σ w n hyps .top goal []
  | eqRefl {rel t} : Prescribes T σ w n hyps .eqRefl (.related rel t t) []
  | flipIntro {rel left right inner rest} (h : rel.view = .flip inner)
      (hrest : Owed n [(Goal.related inner right left).resolve σ] rest) :
      Prescribes T σ w n hyps .flipIntro (.related rel left right) rest
  | arrowIntro {rel left right dom cod fx gy p} (h : rel.view = .arrow dom cod)
      (hleft : left.extend? [.minting "x" n] = some fx)
      (hright : right.extend? [.minting "y" (n + 1)] = some gy) :
      Prescribes T σ w n hyps .arrowIntro (.related rel left right)
        [.derived (n + 3)
          [(Hypothesis.mk dom (.minting "x" n) (.minting "y" (n + 1))
            (.minting "h" (n + 2))).resolve σ]
          ((Goal.related cod fx gy).resolve σ) p]
  | dependentIntro {rel left right edge family inst fv gw p} (h : rel.view = .dependent edge family)
      (hleft : left.extend? [.minting "v" n] = some fv)
      (hright : right.extend? [.minting "v" (n + 1)] = some gw)
      (hinst : Subst.empty.family? family (.minting "v" n) (.minting "v" (n + 1))
        (.minting "e" (n + 2)) = some inst) :
      Prescribes T σ w n hyps .dependentIntro (.related rel left right)
        [.derived (n + 3)
          [(Hypothesis.mk edge (.minting "v" n) (.minting "v" (n + 1))
            (.minting "e" (n + 2))).resolve σ]
          ((Goal.related inst fv gw).resolve σ) p]
  | casesReduce {rel left right rest}
      (h : Search.taken? .empty left ≠ none ∨ Search.taken? .empty right ≠ none)
      (hrest : Owed n [(Goal.related rel ((Search.taken? .empty left).getD left)
        ((Search.taken? .empty right).getD right)).resolve σ] rest) :
      Prescribes T σ w n hyps .casesReduce (.related rel left right) rest
  /-- The relations look the same. -/
  | subrelSame {lesser greater} (h : lesser.view = greater.view) :
      Prescribes T σ w n hyps .subrelRefl (.subrel lesser greater) []
  /-- The relations are made the same. -/
  | subrelUnified {lesser greater} (h : σ.resolve lesser = σ.resolve greater) :
      Prescribes T σ w n hyps .subrelRefl (.subrel lesser greater) []
  | subrelExtremes {lesser greater} (h : greater.view = .top ∨ lesser.view = .bottom) :
      Prescribes T σ w n hyps .subrelExtremes (.subrel lesser greater) []
  | subrelFact {lesser greater id f offset} (hf : T.registry.inclusions[id]? = some f)
      (hlesser : σ.resolve lesser = σ.resolve (f.lesser.rename offset))
      (hgreater : σ.resolve greater = σ.resolve (f.greater.rename offset)) :
      Prescribes T σ w n hyps .subrelFact (.subrel lesser greater) [.leaf (.inclusion id)]
  | subrelTrans {lesser greater id f offset rest} (hf : T.registry.inclusions[id]? = some f)
      (hlesser : σ.resolve lesser = σ.resolve (f.lesser.rename offset))
      (hrest : Owed n [(Goal.subrel (f.greater.rename offset) greater).resolve σ] rest) :
      Prescribes T σ w n hyps .subrelTrans (.subrel lesser greater) (.leaf (.inclusion id) :: rest)
  | subrelArrow {lesser greater a b a' b' rest} (h : lesser.view = .arrow a b)
      (h' : greater.view = .arrow a' b')
      (hrest : Owed n [(Goal.subrel a' a).resolve σ, (Goal.subrel b b').resolve σ] rest) :
      Prescribes T σ w n hyps .subrelStructural (.subrel lesser greater) rest
  | subrelFlip {lesser greater a b rest} (h : lesser.view = .flip a) (h' : greater.view = .flip b)
      (hrest : Owed n [(Goal.subrel a b).resolve σ] rest) :
      Prescribes T σ w n hyps .subrelStructural (.subrel lesser greater) rest
  | subrelDependent {lesser greater e f e' f' r r' rest} (h : lesser.view = .dependent e f)
      (h' : greater.view = .dependent e' f')
      (hr : Subst.empty.family? f (.minting "v" n) (.minting "v" (n + 1)) (.minting "e" (n + 2)) =
        some r)
      (hr' : Subst.empty.family? f' (.minting "v" n) (.minting "v" (n + 1))
        (.minting "e" (n + 2)) = some r')
      (hrest : Owed (n + 3) [(Goal.subrel e' e).resolve σ, (Goal.subrel r r').resolve σ] rest) :
      Prescribes T σ w n hyps .subrelStructural (.subrel lesser greater) rest
  | subrelNamed {lesser greater head xs ys variances rest} (h : lesser.view = .named head xs)
      (h' : greater.view = .named head ys) (hlen : xs.length = ys.length)
      (hv : T.registry.variances.get? head = some variances) (hlen' : variances.length = xs.length)
      (hagree : Agrees σ (xs.zip (ys.zip variances)))
      (hrest : Owed n ((argumentGoals (xs.zip (ys.zip variances))).map (·.resolve σ)) rest) :
      Prescribes T σ w n hyps .subrelStructural (.subrel lesser greater) rest
  /-- The split is that of the moment at which the scrutinees were related. -/
  | destruct {rel s s' arms arms' i early m cases m' p rest} (hearly : early.Before σ w hyps)
      (hm : n ≤ m) (hsplit : Splits T early.subst rel (.var i) arms arms' m cases m')
      (hrest : List.Forall₂ (fun (c : Case) q => ∃ p, q = .derived m' (c.hyps.map (·.resolve σ))
        (c.goal.resolve σ) p) cases rest) :
      Prescribes T σ w n hyps .destruct (.related rel (.cases s arms) (.cases s' arms'))
        (.settled early n (.related (.var i) s s') p :: rest)
  /-- The right side is used only if the left one is a placeholder. -/
  | monotone {side rel left right head args leaf crel cleft cright consumed xs ys m rel' edges owed
        bridge rest}
      (hright : side = .right → ∃ i, left = .var i)
      (hside : side.pick left right = .app head args)
      (hc : Proposes T σ hyps side head leaf crel cleft cright consumed)
      (hbatch : ∃ batch ∈ Batch.plan (T.registry.parameters.get? head) args.length,
        batch.covers consumed = true)
      (hxs : xs.length = args.length - consumed) (hys : ys.length = args.length - consumed)
      (hleft : applyArm? cleft xs = some (σ.resolve left))
      (hright' : applyArm? cright ys = some (σ.resolve right))
      (helim : Eliminates σ n crel (xs.zip ys) m rel' edges owed)
      (hbridge : Bridges σ m rel' (σ.resolve rel) bridge) (hrest : Owed m owed rest) :
      Prescribes T σ w n hyps (.monotone side) (.related rel left right)
        (.leaf leaf :: edges ++ bridge ++ rest)
  | eqCongruence {rel f xs ys rest} (hlen : xs.length = ys.length) (hxs : xs ≠ [])
      (hrest : Owed n ((xs.zip ys).map fun (x, y) => (Goal.related rel x y).resolve σ) rest) :
      Prescribes T σ w n hyps .eqCongruence (.related rel (.app f xs) (.app f ys)) rest
  | eqUnify {rel left right} (h : σ.resolve left = σ.resolve right) :
      Prescribes T σ w n hyps .eqUnify (.related rel left right) []
  | reflPlaceholder {rel left right} (h : σ.resolve left = σ.resolve right)
      (hrel : σ.resolve rel = .equality) :
      Prescribes T σ w n hyps .reflPlaceholder (.related rel left right) []
  /-- What was put off is the goal itself, with the hypotheses in scope. -/
  | deferUnsolved {goal} {i : Nat} (hlimits : T.limits.deferUnsolved = true)
      (hi : w[i]? = some ⟨goal.resolve σ, hyps⟩) :
      Prescribes T σ w n hyps .deferUnsolved goal [.leaf (.deferred i)]
  | relatorIntro {rel head args scheme c xs c' ys pair goals rest} (h : rel.view = .named head args)
      (hs : T.registry.schemes.get? head = some scheme)
      (hpair : scheme.cases.find? (fun p => p.left = c ∧ p.right = c' ∧
        p.fields.length = xs.length ∧ xs.length = ys.length) = some pair)
      (hgoals : List.Forall₂ (fun (f : FieldRel × Term × Term) g => ∃ r,
        f.1.relation? rel args = some r ∧ g = Goal.related r f.2.1 f.2.2)
        (pair.fields.zip (xs.zip ys)) goals)
      (hrest : Owed n (goals.map (·.resolve σ)) rest) :
      Prescribes T σ w n hyps .relatorIntro (.related rel (.app c xs) (.app c' ys)) rest

/-- The proof tree is a derivation of the goal from the hypotheses at the substitution `σ`, with the
obligations `w` put off and new constants numbered from `n` on. -/
inductive Derives (T : Theory) :
    Subst → List Pending → Nat → List Hypothesis → Goal → Proof → Prop
  | step {σ w n m hyps goal rule premises} (hrule : rule ∈ T.rules)
      (hfits : rule.pattern.fits .empty goal = true) (hm : n ≤ m)
      (hprescribes : Prescribes T σ w m hyps rule.method goal premises)
      (hderived : ∀ since further g p, Premise.derived since further g p ∈ premises →
        Derives T σ w since (hyps ++ further) g p)
      (hsettled : ∀ early since g p, Premise.settled early since g p ∈ premises →
        Derives T σ w since hyps (g.resolve σ) p)
      (hearly : ∀ early since g p, Premise.settled early since g p ∈ premises →
        Derives T early.subst early.delayed since early.hyps (g.resolve early.subst) p) :
      Derives T σ w n hyps (goal.resolve σ) (.step rule.name (premises.map Premise.proof))

/-- New constants may as well be numbered from an earlier number on. -/
theorem Derives.of_le {T : Theory} {σ : Subst} {w : List Pending} {n m : Nat}
    {hyps : List Hypothesis} {goal : Goal} {p : Proof} (h : Derives T σ w n hyps goal p)
    (hm : m ≤ n) : Derives T σ w m hyps goal p := by
  cases h with
  | step hrule hfits hn hprescribes hderived hsettled hearly =>
    exact .step hrule hfits (hm.trans hn) hprescribes hderived hsettled hearly

end Monotonicity
