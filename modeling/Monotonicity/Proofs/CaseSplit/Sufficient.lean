import Monotonicity.Proofs.Calculus.CaseSplit
import Monotonicity.Proofs.CaseSplit.Domain

/-!
# The cases of a split are enough

In a domain, a split of equal scrutinees or by a scheme that is exhaustive there leaves nothing out:
if each case is true, whatever its new constants stand for, then the case analyses are related on
all scrutinees that are related (`split_sufficient`). Each pair of related scrutinees is one of
constructor applications, and the new constants of some case can be made to stand for their fields.
-/

namespace Monotonicity

universe u

open Search

variable {T : Theory} {σ : Subst} {s t : State} {goal : Goal} {rel whole scrutinees r : Term}
  {args : List Term} {flipped : Bool} {arms arms' : List (Arm Term)} {head : String}
  {scheme : Scheme} {pair : CasePair} {pairs : List CasePair} {arm : Arm Term} {c : Case}
  {cases : List Case} {n m i j : Nat}

/-! ## One case at a time -/

theorem SchemeCases.le (h : SchemeCases rel whole args flipped arms arms' n pairs cases m) :
    n ≤ m := by
  induction h with
  | nil => exact le_rfl
  | cons _ _ _ _ _ _ _ _ ih => omega

theorem AlignedCases.le (h : AlignedCases rel arms' n arms cases m) : n ≤ m := by
  induction h with
  | nil => exact le_rfl
  | cons _ _ _ _ _ ih => omega

/-- A split by a scheme has a case for each pair of constructors. -/
theorem SchemeCases.exists_case (h : SchemeCases rel whole args flipped arms arms' n pairs cases m)
    (hpair : pair ∈ pairs) : ∃ i j c, n ≤ i ∧ j ≤ m ∧ c ∈ cases ∧
      SchemeCases rel whole args flipped arms arms' i [pair] [c] j := by
  induction h with
  | nil => cases hpair
  | cons hk harm harm' harity hfields hleft hright hrest ih =>
    rcases List.mem_cons.1 hpair with rfl | hpair
    · exact ⟨_, _, _, le_rfl, hrest.le, List.mem_cons_self,
        .cons hk harm harm' harity hfields hleft hright .nil⟩
    · obtain ⟨i, j, c, hi, hj, hc, hcase⟩ := ih hpair
      exact ⟨i, j, c, by omega, hj, List.mem_cons_of_mem _ hc, hcase⟩

/-- A split of equal scrutinees has a case for each arm on the left. -/
theorem AlignedCases.exists_case (h : AlignedCases rel arms' n arms cases m) (harm : arm ∈ arms) :
    ∃ i j c, n ≤ i ∧ j ≤ m ∧ c ∈ cases ∧ AlignedCases rel arms' i [arm] [c] j := by
  induction h with
  | nil => cases harm
  | cons harm' harity hleft hright hrest ih =>
    rcases List.mem_cons.1 harm with rfl | harm
    · exact ⟨_, _, _, le_rfl, hrest.le, List.mem_cons_self,
        .cons harm' harity hleft hright .nil⟩
    · obtain ⟨i, j, c, hi, hj, hc, hcase⟩ := ih harm
      exact ⟨i, j, c, by omega, hj, List.mem_cons_of_mem _ hc, hcase⟩

/-! ## What the cases say -/

namespace Domain

variable {D : Domain.{u}} {v : String → D.Carrier} {x y : D.Carrier}

/-- The goal is true if symbols stand for what `v` says. -/
def Holds (D : Domain.{u}) (v : String → D.Carrier) : Goal → Prop
  | .related rel left right => D.related (D.value v rel) (D.value v left) (D.value v right)
  | .subrel lesser greater =>
    ∀ x y, D.related (D.value v lesser) x y → D.related (D.value v greater) x y

/-- Symbols stand for what they stand for in the domain, but for those minted under numbers from `n`
on and below `m`. -/
def Varies (D : Domain.{u}) (n m : Nat) (v : String → D.Carrier) : Prop :=
  ∀ name, Symbols.Known n name ∨ ¬ Symbols.Known m name → v name = D.symbol name

/-- Whatever the constants minted under numbers from `n` on and below `m` stand for, if the
hypotheses of the case are true then so is its goal. -/
def Valid (D : Domain.{u}) (n m : Nat) (c : Case) : Prop :=
  ∀ v, D.Varies n m v → (∀ h ∈ c.hyps, D.Holds v (.related h.rel h.left h.right)) →
    D.Holds v c.goal

theorem Varies.value_eq {t : Term} (hv : D.Varies n m v) (ht : t.Older n) :
    D.value v t = D.value D.symbol t :=
  value_congr fun name hname => hv name (.inl (ht name hname))

/-- New constants can be made to stand for any elements. -/
theorem exists_varies {names : List String} {as : List D.Carrier}
    (hlength : as.length = names.length) (hnames : Symbols.Fresh i j names) (hi : n ≤ i)
    (hj : j ≤ m) :
    ∃ v, D.Varies n m v ∧ names.map v = as := by
  obtain ⟨v, hkeeps, hmap⟩ := exists_assignment hnames.nodup D.symbol hlength
  refine ⟨v, fun name hname => hkeeps name fun hmem => ?_, hmap⟩
  rcases hname with hknown | hunknown
  · exact hnames.new name hmem (hknown.of_le hi)
  · exact hunknown ((hnames.known name hmem).of_le hj)

theorem map_value_mintings (hint : String) (n k : Nat) :
    (Term.mintings hint n k).map (D.value v) = (Symbols.mintings hint n k).map v := by
  simp [Term.mintings_eq_map, Function.comp_def]

/-- The hypotheses on fields that are related as they should be are true. -/
theorem holds_of_fieldsAssumed {fields : List (FieldRel × Term × Term)} {hyps : List Hypothesis}
    (h : FieldsAssumed whole args flipped n fields hyps)
    (hfields : ∀ field a b, (field, a, b) ∈ fields → ∀ q, field.relation? whole args = some q →
      D.related (D.value v q) (D.value v (if flipped then b else a))
        (D.value v (if flipped then a else b))) :
    ∀ h ∈ hyps, D.Holds v (.related h.rel h.left h.right) := by
  induction h with
  | nil => simp
  | cons hrel _ ih =>
    refine List.forall_mem_cons.2 ⟨hfields _ _ _ List.mem_cons_self _ hrel, ih ?_⟩
    exact fun field a b hmem => hfields field a b (List.mem_cons_of_mem _ hmem)

/-! ## The arms taken -/

/-- A valid case relates the bodies of its arms on what its new constants stand for. -/
theorem Valid.related {body body' : Term} {hyps : List Hypothesis} {left right : Term}
    {xs ys : List Term} (hvalid : D.Valid n m ⟨hyps, .related rel left right⟩)
    (hv : D.Varies n m v) (hhyps : ∀ h ∈ hyps, D.Holds v (.related h.rel h.left h.right))
    (hrel : rel.Older n) (hbody : body.Older n) (hbody' : body'.Older n)
    (hleft : applyArm? body xs = some left) (hright : applyArm? body' ys = some right) :
    D.related (D.value D.symbol rel)
      ((xs.map (D.value v)).foldl D.apply (D.value D.symbol body))
      ((ys.map (D.value v)).foldl D.apply (D.value D.symbol body')) := by
  have hholds : D.related (D.value v rel) (D.value v left) (D.value v right) :=
    hvalid v hv hhyps
  rw [value_of_applyArm? hleft, value_of_applyArm? hright] at hholds
  rw [← hv.value_eq hrel, ← hv.value_eq hbody, ← hv.value_eq hbody']
  exact hholds

/-- If the case of an arm is valid, then equal scrutinees that take the arm have related analyses.
-/
theorem related_of_alignedCase {ctor : String} {fields : List D.Carrier}
    (h : AlignedCases rel arms' i [arm] [c] j) (hi : n ≤ i) (hj : j ≤ m) (hvalid : D.Valid n m c)
    (hrel : rel.Older n) (hbodies : ∀ arm ∈ arms ++ arms', arm.body.Older n)
    (hctor : D.IsConstructor ctor) (harm : armFor? arms ctor = some arm)
    (harity : arm.arity = fields.length) :
    D.related (D.value D.symbol rel)
      (D.analyse (fields.foldl D.apply (D.symbol ctor)) (D.valueArms D.symbol arms))
      (D.analyse (fields.foldl D.apply (D.symbol ctor)) (D.valueArms D.symbol arms')) := by
  cases h with
  | @cons _ _ _ arm' _ left right _ harm' harity' hleft hright hrest =>
  cases hrest
  have hname : arm.ctor = ctor := by simpa using List.find?_some harm
  rw [hname] at harm'
  have hlength : fields.length = (Symbols.mintings "x" i arm.arity).length := by
    simp [Symbols.mintings, harity]
  obtain ⟨v, hv, hmap⟩ := exists_varies hlength (Symbols.fresh_mintings "x" i arm.arity) hi hj
  rw [← map_value_mintings] at hmap
  have hbody := hbodies arm (List.mem_append_left _ (List.mem_of_find?_eq_some harm))
  have hbody' := hbodies arm' (List.mem_append_right _ (List.mem_of_find?_eq_some harm'))
  have hholds := hvalid.related hv (by simp) hrel hbody hbody' hleft hright
  rw [hmap] at hholds
  rw [analyse_of_armFor? hctor harm harity,
    analyse_of_armFor? hctor harm' (harity'.trans harity)]
  exact hholds

/-- If the case of a pair of constructors is valid, then applications of the constructors to related
fields have related analyses. Under a converse the fields are related the other way round. -/
theorem related_of_schemeCase {xs ys : List D.Carrier}
    (h : SchemeCases rel whole args flipped arms arms' i [pair] [c] j) (hi : n ≤ i) (hj : j ≤ m)
    (hvalid : D.Valid n m c) (hrel : rel.Older n)
    (hbodies : ∀ arm ∈ arms ++ arms', arm.body.Older n)
    (hctor : D.IsConstructor (if flipped then pair.right else pair.left))
    (hctor' : D.IsConstructor (if flipped then pair.left else pair.right))
    (hxs : xs.length = pair.fields.length) (hys : ys.length = pair.fields.length)
    (hfields : ∀ (l : Nat) (field : FieldRel) (a b : D.Carrier), pair.fields[l]? = some field →
      xs[l]? = some a → ys[l]? = some b → ∀ q, field.relation? whole args = some q → q.Older n ∧
        D.related (D.value D.symbol q) (if flipped then b else a) (if flipped then a else b)) :
    D.related (D.value D.symbol rel)
      (D.analyse (xs.foldl D.apply (D.symbol (if flipped then pair.right else pair.left)))
        (D.valueArms D.symbol arms))
      (D.analyse (ys.foldl D.apply (D.symbol (if flipped then pair.left else pair.right)))
        (D.valueArms D.symbol arms')) := by
  cases h with
  | @cons _ _ k _ _ arm arm' hyps left right _ hk harm harm' harity hassumed hleft hright hrest =>
  cases hrest
  have hnames := (Symbols.fresh_mintings "x" i k).append (Symbols.fresh_mintings "y" (i + k) k)
  have hlength : (xs ++ ys).length =
      (Symbols.mintings "x" i k ++ Symbols.mintings "y" (i + k) k).length := by
    simp [Symbols.mintings, hxs, hys, hk]
  have hm : i + k + k ≤ m := by omega
  obtain ⟨v, hv, hmap⟩ := exists_varies hlength hnames hi hm
  rw [List.map_append] at hmap
  obtain ⟨hmapx, hmapy⟩ := List.append_inj hmap (by simp [Symbols.mintings, hxs, hk])
  rw [← map_value_mintings] at hmapx hmapy
  have hhyps : ∀ h ∈ hyps, D.Holds v (.related h.rel h.left h.right) := by
    refine holds_of_fieldsAssumed hassumed fun field a b hmem q hq => ?_
    obtain ⟨l, hl⟩ := List.mem_iff_getElem?.1 hmem
    obtain ⟨hfield, hl⟩ := List.getElem?_zip_eq_some.1 hl
    obtain ⟨ha, hb⟩ := List.getElem?_zip_eq_some.1 hl
    have hx : xs[l]? = some (D.value v a) := by simp [← hmapx, ha]
    have hy : ys[l]? = some (D.value v b) := by simp [← hmapy, hb]
    obtain ⟨holder, hrelated⟩ := hfields l field _ _ hfield hx hy q hq
    rw [hv.value_eq holder]
    cases flipped <;> exact hrelated
  have hbody := hbodies arm (List.mem_append_left _ (List.mem_of_find?_eq_some harm))
  have hbody' := hbodies arm' (List.mem_append_right _ (List.mem_of_find?_eq_some harm'))
  have hholds := hvalid.related hv hhyps hrel hbody hbody' hleft hright
  rw [hmapx, hmapy] at hholds
  rw [analyse_of_armFor? hctor harm (harity.1.trans (hk.symm.trans hxs.symm)),
    analyse_of_armFor? hctor' harm' (harity.2.trans (hk.symm.trans hys.symm))]
  exact hholds

/-! ## Exhaustive schemes -/

/-- Elements that the relator relates are applications of the two constructors of some case of the
scheme, to fields related as the case says. -/
def Exhaustive (D : Domain.{u}) (scheme : Scheme) (head : String) (args : List Term) : Prop :=
  ∀ x y, D.related (D.value D.symbol (.app head args)) x y → ∃ pair ∈ scheme.cases,
    D.IsConstructor pair.left ∧ D.IsConstructor pair.right ∧ ∃ xs ys : List D.Carrier,
      x = xs.foldl D.apply (D.symbol pair.left) ∧ y = ys.foldl D.apply (D.symbol pair.right) ∧
      xs.length = pair.fields.length ∧ ys.length = pair.fields.length ∧
      ∀ (l : Nat) (field : FieldRel) (a b : D.Carrier), pair.fields[l]? = some field →
        xs[l]? = some a → ys[l]? = some b →
        ∀ q, field.relation? (.app head args) args = some q → D.related (D.value D.symbol q) a b

end Domain

/-- The relation is seen to be the relator `head` applied to arguments or, if `flipped`, the converse
of that. `inner` is the relation without the converse. -/
def Subst.Shows (σ : Subst) (r inner : Term) (flipped : Bool) (head : String) (args : List Term) :
    Prop :=
  (if flipped then σ.view r = .flip inner else r = inner) ∧ σ.view inner = .named head args

/-- No name minted under the number `n` or a later one stands in the bindings, in the relations, in
the bodies of the arms or in the schemes: the constants minted from `n` on are new. -/
structure NamesOlder (T : Theory) (σ : Subst) (rel scrutinees : Term) (arms arms' : List (Arm Term))
    (n : Nat) : Prop where
  bindings : σ.Within (Term.Older n)
  rel : rel.Older n
  scrutinees : scrutinees.Older n
  bodies : ∀ arm ∈ arms ++ arms', arm.body.Older n
  fixed : ∀ head scheme, T.registry.schemes.get? head = some scheme → ∀ pair ∈ scheme.cases,
    ∀ q, .fixed q ∈ pair.fields → q.Older n

namespace Subst.Shows

variable {inner : Term}

theorem schemeFor? (h : σ.Shows r inner flipped head args)
    (hscheme : T.registry.schemes.get? head = some scheme) :
    T.schemeFor? σ r = some (scheme, σ.resolve inner, args, flipped) := by
  obtain ⟨hr, hinner⟩ := h
  cases flipped with
  | true =>
    have hflip : σ.view r = .flip inner := hr
    simp [Theory.schemeFor?, hflip, hinner, hscheme]
  | false =>
    obtain rfl : r = inner := hr
    simp [Theory.schemeFor?, hinner, hscheme]

theorem older (h : σ.Shows r inner flipped head args) (hσ : σ.Within (Term.Older n))
    (hr : r.Older n) : inner.Older n := by
  cases flipped with
  | true =>
    have hflip : σ.view r = .flip inner := h.1
    exact hσ.of_mem_parts Term.stable_older hr (by simp [hflip, View.parts])
  | false =>
    obtain rfl : r = inner := h.1
    exact hr

/-- The relation stands for the relator or its converse. -/
theorem related_iff {D : Domain.{u}} (h : σ.Shows r inner flipped head args) (hσ : D.Respects σ)
    (x y : D.Carrier) : D.related (D.value D.symbol r) x y ↔
      D.related (D.value D.symbol (.app head args)) (if flipped then y else x)
        (if flipped then x else y) := by
  obtain ⟨hr, hinner⟩ := h
  have hcore : (σ.view inner).core? = some (false, .app head args) := by rw [hinner]; rfl
  cases flipped with
  | true =>
    have hflip : (σ.view r).core? = some (true, inner) := by
      rw [show σ.view r = .flip inner from hr]
      rfl
    exact (hσ.related_view hflip).trans (hσ.related_view hcore)
  | false =>
    obtain rfl : r = inner := hr
    exact hσ.related_view hcore

/-- What the field relations of a case stand for. -/
theorem field_related {D : Domain.{u}} (h : σ.Shows r inner flipped head args) (hσ : D.Respects σ)
    {field : FieldRel} {a b : D.Carrier}
    (hrelated : ∀ q, field.relation? (.app head args) args = some q →
      D.related (D.value D.symbol q) a b) {q : Term}
    (hq : field.relation? (σ.resolve inner) args = some q) :
    D.related (D.value D.symbol q) a b := by
  cases field with
  | arg i => exact hrelated q hq
  | fixed rel => exact hrelated q hq
  | recursive =>
    obtain rfl : σ.resolve inner = q := by simpa [FieldRel.relation?] using hq
    have hcore : (σ.view inner).core? = some (false, .app head args) := by rw [h.2]; rfl
    rw [hσ.value_resolve, hσ.related_view hcore]
    exact hrelated _ rfl

end Subst.Shows

theorem NamesOlder.field (hnames : NamesOlder T σ rel scrutinees arms arms' n) {inner : Term}
    (h : σ.Shows scrutinees inner flipped head args)
    (hscheme : T.registry.schemes.get? head = some scheme) (hpair : pair ∈ scheme.cases)
    {field : FieldRel} (hfield : field ∈ pair.fields) {q : Term}
    (hq : field.relation? (σ.resolve inner) args = some q) : q.Older n := by
  have hinner : inner.Older n := h.older hnames.bindings hnames.scrutinees
  cases field with
  | arg i =>
    have hmem : q ∈ args := List.mem_of_getElem? hq
    exact hnames.bindings.of_mem_parts Term.stable_older hinner (by simp [h.2, View.parts, hmem])
  | fixed rel =>
    obtain rfl : rel = q := by simpa [FieldRel.relation?] using hq
    exact hnames.fixed head scheme hscheme pair hpair rel hfield
  | recursive =>
    obtain rfl : σ.resolve inner = q := by simpa [FieldRel.relation?] using hq
    exact hnames.bindings.resolve Term.stable_older hinner

/-! ## Sufficiency -/

namespace Domain

variable {D : Domain.{u}} {x y : D.Carrier}

/-- Valid cases of equal scrutinees. -/
theorem related_of_aligned (hnames : NamesOlder T σ rel scrutinees arms arms' n)
    (h : AlignedCases rel arms' n arms cases m) (hcases : ∀ c ∈ cases, D.Valid n m c)
    {ctor : String} {fields : List D.Carrier} (hctor : D.IsConstructor ctor)
    (harm : armFor? arms ctor = some arm) (harity : arm.arity = fields.length) :
    D.related (D.value D.symbol rel)
      (D.analyse (fields.foldl D.apply (D.symbol ctor)) (D.valueArms D.symbol arms))
      (D.analyse (fields.foldl D.apply (D.symbol ctor)) (D.valueArms D.symbol arms')) := by
  obtain ⟨i, j, c, hi, hj, hc, hcase⟩ := h.exists_case (List.mem_of_find?_eq_some harm)
  exact related_of_alignedCase hcase hi hj (hcases c hc) hnames.rel hnames.bodies hctor harm harity

/-- Valid cases of an exhaustive scheme. -/
theorem related_of_scheme {inner : Term} (hnames : NamesOlder T σ rel scrutinees arms arms' n)
    (hσ : D.Respects σ) (hshows : σ.Shows scrutinees inner flipped head args)
    (hscheme : T.registry.schemes.get? head = some scheme) (hD : D.Exhaustive scheme head args)
    (h : SchemeCases rel (σ.resolve inner) args flipped arms arms' n scheme.cases cases m)
    (hcases : ∀ c ∈ cases, D.Valid n m c) (hxy : D.related (D.value D.symbol scrutinees) x y) :
    D.related (D.value D.symbol rel) (D.analyse x (D.valueArms D.symbol arms))
      (D.analyse y (D.valueArms D.symbol arms')) := by
  rw [hshows.related_iff hσ] at hxy
  obtain ⟨pair, hpair, hleft, hright, as, bs, hx, hy, has, hbs, hfields⟩ := hD _ _ hxy
  obtain ⟨i, j, c, hi, hj, hc, hcase⟩ := h.exists_case hpair
  have hvalid := hcases c hc
  -- under a converse, the scheme's left constructor is that of `y`
  cases flipped with
  | true =>
    obtain rfl : y = as.foldl D.apply (D.symbol pair.left) := hx
    obtain rfl : x = bs.foldl D.apply (D.symbol pair.right) := hy
    refine related_of_schemeCase hcase hi hj hvalid hnames.rel hnames.bodies hright hleft hbs has ?_
    intro l field b a hl hb ha q hq
    exact ⟨hnames.field hshows hscheme hpair (List.mem_of_getElem? hl) hq,
      hshows.field_related hσ (hfields l field a b hl ha hb) hq⟩
  | false =>
    obtain rfl : x = as.foldl D.apply (D.symbol pair.left) := hx
    obtain rfl : y = bs.foldl D.apply (D.symbol pair.right) := hy
    refine related_of_schemeCase hcase hi hj hvalid hnames.rel hnames.bodies hleft hright has hbs ?_
    intro l field a b hl ha hb q hq
    exact ⟨hnames.field hshows hscheme hpair (List.mem_of_getElem? hl) hq,
      hshows.field_related hσ (hfields l field a b hl ha hb) hq⟩

/-- In a domain in which the bindings hold, let `split` have cases that are all true whatever its
new constants stand for. If the scrutinees are equal then the analyses of every constructor
application with as many fields as the first arm of the constructor on the left has are related. If
the scrutinees are related by a relator or its converse with a scheme that is exhaustive in the
domain, then the analyses of all scrutinees so related are related. -/
theorem split_sufficient (hσ : D.Respects s.subst)
    (hnames : NamesOlder T s.subst rel scrutinees arms arms' s.minted)
    (hrun : (split T goal rel scrutinees arms arms').run s = .success cases t)
    (hcases : ∀ c ∈ cases, D.Valid s.minted t.minted c)
    (hxy : D.related (D.value D.symbol scrutinees) x y) :
    (s.subst.view scrutinees = .equality →
      ∀ (ctor : String) (fields : List D.Carrier) (arm : Arm Term), D.IsConstructor ctor →
      x = fields.foldl D.apply (D.symbol ctor) → armFor? arms ctor = some arm →
      arm.arity = fields.length →
      D.related (D.value D.symbol rel) (D.analyse x (D.valueArms D.symbol arms))
        (D.analyse y (D.valueArms D.symbol arms'))) ∧
    ∀ inner flipped head args scheme, s.subst.Shows scrutinees inner flipped head args →
      T.registry.schemes.get? head = some scheme → D.Exhaustive scheme head args →
      D.related (D.value D.symbol rel) (D.analyse x (D.valueArms D.symbol arms))
        (D.analyse y (D.valueArms D.symbol arms')) := by
  have hsplits := (Ends.of_success split_gets hrun).2.2
  constructor
  · intro hview ctor fields arm hctor hx harm harity
    have hcore : (s.subst.view scrutinees).core? = some (false, .equality) := by rw [hview]; rfl
    have hequal : x = y := (D.related_equality x y).1 ((hσ.related_view hcore).1 hxy)
    cases hsplits with
    | aligned _ h =>
      subst hequal hx
      exact related_of_aligned hnames h hcases hctor harm harity
    | scheme h _ => simp [Theory.schemeFor?, hview] at h
    | pairs h _ _ => exact (h hview).elim
  · intro inner flipped head args scheme hshows hscheme hD
    have hfor := hshows.schemeFor? hscheme
    cases hsplits with
    | aligned h _ => simp [Theory.schemeFor?, h] at hfor
    | scheme h hsplit =>
      rw [hfor] at h
      cases h
      exact related_of_scheme hnames hσ hshows hscheme hD hsplit hcases hxy
    | pairs _ h _ => simp [hfor] at h

/-! ### Two crossed constructors -/

/-- A relator that relates `C x` with `D y` if its argument relates `x` with `y`. -/
def crossedScheme : Scheme := ⟨[⟨"C", "D", [.arg 0]⟩]⟩

/-- The relator at `R`. -/
def crossedRelator : Term := .app "T" [.const "R"]

/-- A theory with the scheme of the relator. -/
def crossedTheory : Theory :=
  { Theory.standard {} with registry := { schemes := Table.insert {} "T" crossedScheme } }

/-- A state in which `?1` is bound to the converse of the relator. -/
def crossedState : State where
  subst := Subst.empty.bind 1 crossedRelator.flip
  ledger := { nextVar := 2, symbols := {} }

/-- `R` relates `p` with `q`, so the relator relates `C p` with `D q`, and `Q` relates `f q` with
`g p`. -/
def crossed : Domain :=
  Domain.ofFacts
    {(.const "R", .const "p", .const "q"),
      (crossedRelator, .app "C" [.const "p"], .app "D" [.const "q"]),
      (.const "Q", .app "f" [.const "q"], .app "g" [.const "p"])}
    fun _ => crossedRelator.flip

theorem crossed_respects : crossed.Respects crossedState.subst := by
  intro i t ht
  have ht : (Subst.empty.bind 1 crossedRelator.flip).get? i = some t := ht
  by_cases hi : i = 1
  · subst hi
    rw [Subst.get?_bind_self, Option.some.injEq] at ht
    subst ht
    rfl
  · rw [Subst.get?_bind_of_ne _ hi, Subst.get?_empty] at ht
    cases ht

theorem crossed_related_argument {a b : Term} :
    crossed.related (Term.const "R") a b ↔ a = .const "p" ∧ b = .const "q" := by
  refine (related_ofFacts rfl (by decide)).trans ?_
  simp [crossedRelator]

theorem crossed_related_relator {a b : Term} :
    crossed.related crossedRelator a b ↔
      a = .app "C" [.const "p"] ∧ b = .app "D" [.const "q"] := by
  refine (related_ofFacts rfl (by decide)).trans ?_
  simp [crossedRelator]

theorem crossed_related_result :
    crossed.related (Term.const "Q") (Term.app "f" [.const "q"]) (Term.app "g" [.const "p"]) :=
  (related_ofFacts rfl (by decide)).2 (by simp)

theorem crossed_exhaustive : crossed.Exhaustive crossedScheme "T" [.const "R"] := by
  intro x y hxy
  obtain ⟨rfl, rfl⟩ := crossed_related_relator.1 hxy
  refine ⟨_, List.mem_singleton_self _, trivial, trivial, [Term.const "p"], [Term.const "q"], rfl,
    rfl, rfl, rfl, ?_⟩
  intro l field a b hl ha hb q hq
  cases l with
  | zero =>
    cases hl
    cases ha
    cases hb
    cases hq
    exact crossed_related_argument.2 ⟨rfl, rfl⟩
  | succ l => simp at hl

/-- The case of the split below. -/
def crossedCase : Case where
  hyps := [⟨.const "R", .minting "y" 1, .minting "x" 0, .minting "h" 2⟩]
  goal := .related (.const "Q") (.app "f" [.minting "x" 0]) (.app "g" [.minting "y" 1])

theorem crossed_valid (n m : Nat) : crossed.Valid n m crossedCase := by
  intro v hv hhyps
  have hname (name : String) (h : Symbols.isMarked name = false) : v name = Term.const name :=
    hv name (.inl (Symbols.known_of_unmarked h))
  have hR : crossed.related (v "R") (v (Symbols.minting "y" 1)) (v (Symbols.minting "x" 0)) := by
    simpa [Holds, Term.minting] using hhyps _ List.mem_cons_self
  suffices hQ : crossed.related (v "Q") (crossed.apply (v "f") (v (Symbols.minting "x" 0)))
      (crossed.apply (v "g") (v (Symbols.minting "y" 1))) by
    simpa [crossedCase, Holds, Term.minting] using hQ
  rw [hname "R" (by decide)] at hR
  obtain ⟨hy, hx⟩ := crossed_related_argument.1 hR
  rw [hname "Q" (by decide), hname "f" (by decide), hname "g" (by decide), hx, hy]
  exact crossed_related_result

/-- Scrutinees are related by the converse of the relator, behind a binding. The right analysis has
two arms for `C`, and the first one is taken. -/
theorem split_sufficient_crossed :
    let s := crossedState
    let x : crossed.Carrier := Term.app "D" [.const "q"]
    let y : crossed.Carrier := Term.app "C" [.const "p"]
    let arms : List (Arm Term) := [⟨"D", 1, .const "f"⟩]
    let arms' : List (Arm Term) := [⟨"C", 1, .const "g"⟩, ⟨"C", 1, .const "k"⟩]
    let goal : Goal := .related (.const "Q") (.cases (.const "u") arms) (.cases (.const "w") arms')
    crossed.Respects s.subst ∧
    NamesOlder crossedTheory s.subst (.const "Q") (.var 1) arms arms' s.minted ∧
    (∃ cases t,
      (split crossedTheory goal (.const "Q") (.var 1) arms arms').run s = .success cases t ∧
      ∀ c ∈ cases, crossed.Valid s.minted t.minted c) ∧
    crossed.related (crossed.value crossed.symbol (.var 1)) x y ∧
    crossed.related (crossed.value crossed.symbol (.const "Q"))
      (crossed.analyse x (crossed.valueArms crossed.symbol arms))
      (crossed.analyse y (crossed.valueArms crossed.symbol arms')) := by
  intro s x y arms arms' goal
  have hnames : NamesOlder crossedTheory s.subst (.const "Q") (.var 1) arms arms' s.minted := by
    refine ⟨Subst.within_empty.bind 1 (Term.older_of_unmarked ?_),
      Term.older_of_unmarked (by decide), Term.older_of_unmarked (by decide), ?_, ?_⟩
    · decide
    · have hbodies : ∀ arm ∈ arms ++ arms', ∀ name ∈ arm.body.symbols,
          Symbols.isMarked name = false := by decide
      exact fun arm harm => Term.older_of_unmarked (hbodies arm harm)
    · intro head scheme hscheme pair hpair q hq
      have hscheme : (Table.insert {} "T" crossedScheme).get? head = some scheme := hscheme
      by_cases hhead : head = "T"
      · subst hhead
        rw [Table.get?_insert_self, Option.some.injEq] at hscheme
        subst hscheme
        obtain rfl := List.mem_singleton.1 hpair
        simp at hq
      · rw [Table.get?_insert_of_ne _ hhead] at hscheme
        cases hscheme
  obtain ⟨t, hrun⟩ : ∃ t, (split crossedTheory goal (.const "Q") (.var 1) arms arms').run s =
      .success [crossedCase] t := ⟨_, rfl⟩
  have hvalid : ∀ c ∈ [crossedCase], crossed.Valid s.minted t.minted c :=
    List.forall_mem_singleton.2 (crossed_valid s.minted t.minted)
  have hxy : crossed.related (crossed.value crossed.symbol (.var 1)) x y :=
    (crossed.related_flip crossedRelator x y).2 (crossed_related_relator.2 ⟨rfl, rfl⟩)
  have hshows : s.subst.Shows (.var 1) crossedRelator true "T" [.const "R"] := ⟨rfl, rfl⟩
  exact ⟨crossed_respects, hnames, ⟨_, t, hrun, hvalid⟩, hxy,
    (split_sufficient crossed_respects hnames hrun hvalid hxy).2 _ _ _ _ _ hshows rfl
      crossed_exhaustive⟩

/-! ### A name that was there before -/

/-- `Q` relates `f t t` with `g t`, for all `t`. -/
def diagonal : Domain :=
  Domain.ofFacts {fact | ∃ t, fact = (.const "Q", .app "f" [t, t], .app "g" [t])} .var

theorem diagonal_related {a b : Term} :
    diagonal.related (Term.const "Q") a b ↔ ∃ t, a = .app "f" [t, t] ∧ b = .app "g" [t] := by
  refine (related_ofFacts rfl (by decide)).trans ?_
  simp

/-- The case of the split below. -/
def diagonalCase : Case where
  hyps := []
  goal := .related (.const "Q") (.app "f" [.const "x#0", .minting "x" 0])
    (.app "g" [.minting "x" 0])

theorem diagonal_valid (n m : Nat) : diagonal.Valid n m diagonalCase := by
  intro v hv _
  have hname (name : String) (h : Symbols.isMarked name = false) : v name = Term.const name :=
    hv name (.inl (Symbols.known_of_unmarked h))
  have hQ : diagonal.related (v "Q")
      (diagonal.apply (diagonal.apply (v "f") (v "x#0")) (v "x#0"))
      (diagonal.apply (v "g") (v "x#0")) := by
    rw [hname "Q" (by decide), hname "f" (by decide), hname "g" (by decide)]
    exact diagonal_related.2 ⟨v "x#0", rfl, rfl⟩
  -- the new constant is the one in the arm
  have hminted : Symbols.minting "x" 0 = "x#0" := by decide
  simpa [diagonalCase, Holds, Term.minting, hminted] using hQ

/-- If an arm speaks of `x#0`, and this is the name that the split mints for the field, then the only
case is true whatever `x#0` stands for. But `C a` is analysed as `f x#0 a` on the left and as `g a`
on the right, and these are not related. -/
theorem split_insufficient_for_known_name :
    let s : State := { ledger := { nextVar := 0, symbols := {} } }
    let arms : List (Arm Term) := [⟨"C", 1, .app "f" [.const "x#0"]⟩]
    let arms' : List (Arm Term) := [⟨"C", 1, .const "g"⟩]
    let goal : Goal := .related (.const "Q") (.cases (.const "u") arms) (.cases (.const "u") arms')
    let x : diagonal.Carrier := Term.app "C" [.const "a"]
    diagonal.Respects s.subst ∧
    (∃ cases t, (split (.standard {}) goal (.const "Q") .equality arms arms').run s =
        .success cases t ∧ ∀ c ∈ cases, diagonal.Valid s.minted t.minted c) ∧
    s.subst.view .equality = .equality ∧ diagonal.IsConstructor "C" ∧
    x = [Term.const "a"].foldl diagonal.apply (diagonal.symbol "C") ∧
    armFor? arms "C" = some ⟨"C", 1, .app "f" [.const "x#0"]⟩ ∧
    ¬ diagonal.related (diagonal.value diagonal.symbol (.const "Q"))
      (diagonal.analyse x (diagonal.valueArms diagonal.symbol arms))
      (diagonal.analyse x (diagonal.valueArms diagonal.symbol arms')) := by
  intro s arms arms' goal x
  obtain ⟨t, hrun⟩ : ∃ t, (split (.standard {}) goal (.const "Q") .equality arms arms').run s =
      .success [diagonalCase] t := ⟨_, rfl⟩
  refine ⟨?_, ⟨_, t, hrun, ?_⟩, rfl, trivial, rfl, rfl, fun hrelated => ?_⟩
  · intro i t ht
    have ht : Subst.empty.get? i = some t := ht
    rw [Subst.get?_empty] at ht
    cases ht
  · exact List.forall_mem_singleton.2 (diagonal_valid s.minted t.minted)
  · obtain ⟨t, hleft, hright⟩ := diagonal_related.1 hrelated
    have hleft : Term.app "f" [.const "x#0", .const "a"] = .app "f" [t, t] := hleft
    simp only [Term.app.injEq, List.cons.injEq, and_true, true_and] at hleft
    exact absurd (hleft.1.trans hleft.2.symm) (by decide)

end Domain

end Monotonicity
