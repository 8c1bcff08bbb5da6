import Mathlib.Data.List.Basic
import Mathlib.Data.List.Nodup
import Monotonicity.Proofs.Term.Placeholders
import Monotonicity.Registry

/-!
# Looking facts up

Facts are filed by the head of each side when they are registered, and are looked up in what was
filed. Here a look-up is compared with going through all registrations: `Registration.scan` lists
the numbers of those of one kind whose side passes a test.

`Records calls r` says that `r` holds the facts of some registrations, in their order, whatever else
was declared between them. What a shelf has under a head is then what a scan for that head finds
(`Shelf.Lists`), which filing one more fact preserves.
-/

namespace Monotonicity

/-- The term is an application of this head. -/
def Term.hasHead (head : String) : Term → Bool
  | .app h _ => h = head
  | _ => false

/-- The term is an application of this head to this many arguments. -/
def Term.hasShape (head : String) (arity : Nat) : Term → Bool
  | .app h args => h = head && args.length = arity
  | _ => false

theorem Term.hasHead_iff {head : String} {t : Term} :
    t.hasHead head = true ↔ ∃ args, t = .app head args := by
  cases t <;> simp [Term.hasHead]

theorem Term.hasShape_iff {head : String} {arity : Nat} {t : Term} :
    t.hasShape head arity = true ↔ ∃ args, t = .app head args ∧ args.length = arity := by
  cases t with
  | app h args =>
    simp only [Term.hasShape, Bool.and_eq_true, decide_eq_true_eq, Term.app.injEq]
    constructor
    · rintro ⟨rfl, harity⟩
      exact ⟨args, ⟨rfl, rfl⟩, harity⟩
    · rintro ⟨args', ⟨rfl, rfl⟩, harity⟩
      exact ⟨rfl, harity⟩
  | var i => simp [Term.hasShape]
  | cases s arms => simp [Term.hasShape]

/-! ## Registrations -/

/-- What is asked to be registered. -/
inductive Registration where
  /-- A fact about two terms. -/
  | pair (rel left right witness : Term)
  /-- A term that is related to itself. -/
  | self (rel term witness : Term)
deriving DecidableEq, Repr

namespace Registration

variable {r : Registry} {c : Registration} {calls : List Registration} {s : Side}
  {test : Term → Bool} {id : Nat}

def kind : Registration → FactKind
  | .pair .. => .pair
  | .self .. => .self

/-- The terms given, with those that stand on both sides given once. -/
def terms : Registration → List Term
  | .pair rel left right witness => [rel, left, right, witness]
  | .self rel term witness => [rel, term, witness]

/-- The fact to be registered. -/
def fact (c : Registration) : Fact :=
  match c with
  | .pair rel left right witness => ⟨rel, left, right, witness, .pair, Term.boundAll c.terms⟩
  | .self rel term witness => ⟨rel, term, term, witness, .self, Term.boundAll c.terms⟩

def side (c : Registration) (s : Side) : Term := c.fact.side s

/-- Registers. -/
def add? (r : Registry) : Registration → Option (Nat × Registry)
  | .pair rel left right witness => r.addFact? rel left right witness
  | .self rel term witness => r.addSelf? rel term witness

/-- Files a number in one of two indexes. -/
def fileIn (kind : FactKind) (c : Registration) (id : Nat) (x : Index) : Index :=
  if c.kind = kind then x.file id (c.side .left) (c.side .right) else x

/-- The registry with one more fact. -/
def addTo (c : Registration) (r : Registry) : Registry :=
  { r with
    facts := r.facts.push c.fact
    pairs := c.fileIn .pair r.facts.size r.pairs
    selves := c.fileIn .self r.facts.size r.selves }

/-- A registration is refused only if its placeholders leave no room for renaming, and it gets the
next number otherwise. -/
theorem add?_eq (c : Registration) (r : Registry) :
    c.add? r =
      if Term.boundAll c.terms < indexBound then some (r.facts.size, c.addTo r) else none := by
  by_cases h : Term.boundAll c.terms < indexBound
  · cases c <;> simp only [terms] at h <;>
      simp [add?, Registry.addFact?, Registry.addSelf?, schematic?, terms, h] <;> rfl
  · cases c <;> simp only [terms] at h <;>
      simp [add?, Registry.addFact?, Registry.addSelf?, schematic?, terms, h]

theorem add?_eq_some {r' : Registry} :
    c.add? r = some (id, r') ↔
      Term.boundAll c.terms < indexBound ∧ id = r.facts.size ∧ r' = c.addTo r := by
  rw [add?_eq]
  split
  · next h => simp [h, eq_comm]
  · next h => simp [h]

/-- The numbers of the registrations of one kind whose side passes a test, in their order. -/
def scan (calls : List Registration) (kind : FactKind) (s : Side) (test : Term → Bool) : List Nat :=
  (calls.zipIdx.filter fun (c, _) => c.kind = kind && test (c.side s)).map Prod.snd

theorem scan_append_singleton (calls : List Registration) (c : Registration) (kind : FactKind)
    (s : Side) (test : Term → Bool) :
    scan (calls ++ [c]) kind s test =
      scan calls kind s test ++
        if c.kind = kind ∧ test (c.side s) = true then [calls.length] else [] := by
  simp only [scan, List.zipIdx_append, List.filter_append, List.map_append,
    List.append_cancel_left_eq]
  split
  · next h => simp [h]
  · next h => simp [h]

theorem mem_scan {kind : FactKind} :
    id ∈ scan calls kind s test ↔
      ∃ c, calls[id]? = some c ∧ c.kind = kind ∧ test (c.side s) = true := by
  simp [scan, List.mem_zipIdx_iff_getElem?]

theorem nodup_scan (calls : List Registration) (kind : FactKind) (s : Side) (test : Term → Bool) :
    (scan calls kind s test).Nodup := by
  refine List.Nodup.sublist (List.Sublist.map _ List.filter_sublist) ?_
  simpa using List.nodup_range'

/-- A registration is of one kind or the other. -/
theorem mem_scan_append :
    id ∈ scan calls .pair s test ++ scan calls .self s test ↔
      ∃ c, calls[id]? = some c ∧ test (c.side s) = true := by
  simp only [List.mem_append, mem_scan]
  constructor
  · rintro (⟨c, hc, -, ht⟩ | ⟨c, hc, -, ht⟩) <;> exact ⟨c, hc, ht⟩
  · rintro ⟨c, hc, ht⟩
    cases hk : c.kind
    · exact .inl ⟨c, hc, hk, ht⟩
    · exact .inr ⟨c, hc, hk, ht⟩

theorem nodup_scan_append (calls : List Registration) (s : Side) (test : Term → Bool) :
    (scan calls .pair s test ++ scan calls .self s test).Nodup := by
  refine List.nodup_append'.2 ⟨nodup_scan .., nodup_scan .., fun id hpair hself => ?_⟩
  obtain ⟨c, hc, hk, -⟩ := mem_scan.1 hpair
  obtain ⟨c', hc', hk', -⟩ := mem_scan.1 hself
  obtain rfl : c = c' := Option.some.inj (hc.symm.trans hc')
  simp [hk] at hk'

/-- The placeholders of a fact are below the number of those set aside for its use. -/
theorem lt_schematic (c : Registration) {t : Term} {i : Nat}
    (ht : t ∈ [c.fact.rel, c.fact.left, c.fact.right, c.fact.witness]) (hi : i ∈ t.vars) :
    i < c.fact.schematic := by
  have hterms : t ∈ c.terms := by cases c <;> simp_all [fact, terms]
  have hschematic : c.fact.schematic = Term.boundAll c.terms := by cases c <;> rfl
  rw [hschematic]
  exact Term.lt_boundAll_of_mem hterms hi

end Registration

open Registration

/-! ## What is filed -/

/-- Under every head, with or without a number of arguments, the shelf has what a scan finds. -/
structure Shelf.Lists (shelf : Shelf) (scan : (Term → Bool) → List Nat) : Prop where
  shape : ∀ head arity,
    (shelf.byShape.get? (head, arity)).getD [] = scan (Term.hasShape head arity)
  head : ∀ head, (shelf.byHead.get? head).getD [] = scan (Term.hasHead head)

/-- Filing a number adds it to what is found under the head of its term. -/
theorem Shelf.Lists.file {shelf : Shelf} {scan : (Term → Bool) → List Nat} (h : shelf.Lists scan)
    (id : Nat) (t : Term) :
    (shelf.file id t).Lists fun test => scan test ++ if test t then [id] else [] := by
  cases t with
  | var i => exact ⟨by simpa [Shelf.file, Term.hasShape] using h.shape,
      by simpa [Shelf.file, Term.hasHead] using h.head⟩
  | cases s arms => exact ⟨by simpa [Shelf.file, Term.hasShape] using h.shape,
      by simpa [Shelf.file, Term.hasHead] using h.head⟩
  | app f args =>
    constructor
    · intro head arity
      by_cases hkey : (head, arity) = (f, args.length)
      · cases hkey
        simp [Shelf.file, Term.hasShape, h.shape]
      · have hno : (Term.app f args).hasShape head arity = false := by
          simp only [Prod.mk.injEq, not_and] at hkey
          simpa [Term.hasShape] using fun e => Ne.symm (hkey e.symm)
        simp [Shelf.file, Table.get?_alter_of_ne _ hkey, hno, h.shape]
    · intro head
      by_cases hkey : head = f
      · subst hkey
        simp [Shelf.file, Term.hasHead, h.head]
      · simp [Shelf.file, Table.get?_alter_of_ne _ hkey, Term.hasHead, Ne.symm hkey, h.head]

theorem Index.shelf_file (x : Index) (id : Nat) (left right : Term) (s : Side) :
    (x.file id left right).shelf s = (x.shelf s).file id (s.pick left right) := by
  cases s <;> rfl

/-- The index has what scans for one kind of facts find on either side. -/
def Index.Lists (x : Index) (kind : FactKind) (calls : List Registration) : Prop :=
  ∀ s, (x.shelf s).Lists (scan calls kind s)

theorem Index.lists_empty (kind : FactKind) : Index.Lists {} kind [] := by
  intro s
  cases s <;> exact ⟨fun _ _ => rfl, fun _ => rfl⟩

theorem Index.Lists.fileIn {x : Index} {kind : FactKind} {calls : List Registration}
    (h : x.Lists kind calls) (c : Registration) :
    (c.fileIn kind calls.length x).Lists kind (calls ++ [c]) := by
  intro s
  have hscan : scan (calls ++ [c]) kind s = fun test => scan calls kind s test ++
      if c.kind = kind ∧ test (c.side s) = true then [calls.length] else [] :=
    funext fun test => scan_append_singleton calls c kind s test
  rw [hscan, Registration.fileIn]
  by_cases hkind : c.kind = kind
  · have hside : s.pick (c.side .left) (c.side .right) = c.side s := by cases s <;> rfl
    simpa [hkind, Index.shelf_file, hside] using (h s).file calls.length (c.side s)
  · simpa [hkind] using h s

/-! ## Registries -/

namespace Registry

variable {r : Registry} {calls : List Registration}

/-- What a registry holds once the given registrations were made, in this order and since there was
no fact. Everything else may be declared at any time. -/
inductive Records : List Registration → Registry → Prop
  | start {r : Registry} (hfacts : r.facts = #[]) (hpairs : r.pairs = {})
      (hselves : r.selves = {}) : Records [] r
  | add {calls : List Registration} {r r' : Registry} {c : Registration} {id : Nat}
      (h : Records calls r) (hadd : c.add? r = some (id, r')) : Records (calls ++ [c]) r'
  | declare {calls : List Registration} {r r' : Registry} (h : Records calls r)
      (hfacts : r'.facts = r.facts) (hpairs : r'.pairs = r.pairs) (hselves : r'.selves = r.selves) :
      Records calls r'

namespace Records

theorem toList_facts (h : r.Records calls) : r.facts.toList = calls.map fact := by
  induction h with
  | start hfacts => simp [hfacts]
  | add _ hadd ih =>
    obtain ⟨-, -, rfl⟩ := add?_eq_some.1 hadd
    simp [addTo, ih]
  | declare _ hfacts _ _ ih => rw [hfacts, ih]

theorem size_facts (h : r.Records calls) : r.facts.size = calls.length := by
  rw [← Array.length_toList, h.toList_facts, List.length_map]

theorem getElem?_facts (h : r.Records calls) (id : Nat) : r.facts[id]? = calls[id]?.map fact := by
  rw [← Array.getElem?_toList, h.toList_facts, List.getElem?_map]

theorem lists (h : r.Records calls) : r.pairs.Lists .pair calls ∧ r.selves.Lists .self calls := by
  induction h with
  | start _ hpairs hselves =>
    rw [hpairs, hselves]
    exact ⟨Index.lists_empty .pair, Index.lists_empty .self⟩
  | @add calls r r' c id h hadd ih =>
    obtain ⟨-, -, rfl⟩ := add?_eq_some.1 hadd
    simp only [addTo, h.size_facts]
    exact ⟨ih.1.fileIn c, ih.2.fileIn c⟩
  | declare _ _ hpairs hselves ih => rwa [hpairs, hselves]

/-- What is looked up is what a scan of all registrations finds: first the facts about two terms,
then the terms related to themselves. -/
theorem byShape_eq (h : r.Records calls) (s : Side) (head : String) (arity : Nat) :
    r.byShape s head arity = scan calls .pair s (Term.hasShape head arity) ++
      scan calls .self s (Term.hasShape head arity) := by
  rw [byShape, (h.lists.1 s).shape, (h.lists.2 s).shape]

theorem byHead_eq (h : r.Records calls) (s : Side) (head : String) :
    r.byHead s head =
      scan calls .pair s (Term.hasHead head) ++ scan calls .self s (Term.hasHead head) := by
  rw [byHead, (h.lists.1 s).head, (h.lists.2 s).head]

/-- A registration whose placeholders leave room for renaming is made. -/
theorem addTo (h : r.Records calls) (c : Registration)
    (hroom : Term.boundAll c.terms < indexBound) : (c.addTo r).Records (calls ++ [c]) :=
  h.add (add?_eq_some.2 ⟨hroom, rfl, rfl⟩)

end Records

/-- A look-up by head, with the number of arguments (`by_shape`) or without (`by_head`), gives
exactly the facts that going through all registrations finds, in this order and none twice. Sides
that are no application are never found. Facts are numbered without gaps, a number stands for the
same fact ever after, and the placeholders of a fact are below the number of those that are set
aside for its use. -/
theorem lookup_eq_scan (h : r.Records calls) (s : Side) (head : String) (arity : Nat) :
    (r.byShape s head arity = scan calls .pair s (Term.hasShape head arity) ++
        scan calls .self s (Term.hasShape head arity) ∧
      (r.byShape s head arity).Nodup ∧
      ∀ id, id ∈ r.byShape s head arity ↔
        ∃ c args, calls[id]? = some c ∧ c.side s = .app head args ∧ args.length = arity) ∧
    (r.byHead s head =
        scan calls .pair s (Term.hasHead head) ++ scan calls .self s (Term.hasHead head) ∧
      (r.byHead s head).Nodup ∧
      ∀ id, id ∈ r.byHead s head ↔ ∃ c args, calls[id]? = some c ∧ c.side s = .app head args) ∧
    r.facts.size = calls.length ∧
    (∀ c : Registration, Term.boundAll c.terms < indexBound →
      ∃ r' : Registry, c.add? r = some (calls.length, r') ∧ r'.Records (calls ++ [c])) ∧
    (∀ (more : List Registration) (r' : Registry), r'.Records (calls ++ more) →
      ∀ (id : Nat) (c : Registration), calls[id]? = some c → r'.facts[id]? = some c.fact) ∧
    ∀ (id : Nat) (fact : Fact), r.facts[id]? = some fact →
      ∀ t ∈ [fact.rel, fact.left, fact.right, fact.witness], ∀ i ∈ t.vars, i < fact.schematic := by
  refine ⟨⟨h.byShape_eq s head arity, ?_, fun id => ?_⟩, ⟨h.byHead_eq s head, ?_, fun id => ?_⟩,
    h.size_facts, fun c hroom => ⟨c.addTo r, ?_, h.addTo c hroom⟩, fun more r' h' id c hc => ?_,
    fun id fact hfact t ht i hi => ?_⟩
  · rw [h.byShape_eq]
    exact nodup_scan_append ..
  · rw [h.byShape_eq, mem_scan_append]
    simp [Term.hasShape_iff]
  · rw [h.byHead_eq]
    exact nodup_scan_append ..
  · rw [h.byHead_eq, mem_scan_append]
    simp [Term.hasHead_iff]
  · exact add?_eq_some.2 ⟨hroom, h.size_facts.symm, rfl⟩
  · have hlt : id < calls.length := (List.getElem?_eq_some_iff.1 hc).1
    rw [h'.getElem?_facts, List.getElem?_append_left hlt, hc, Option.map_some]
  · rw [h.getElem?_facts] at hfact
    obtain ⟨c, -, rfl⟩ := Option.map_eq_some_iff.1 hfact
    exact c.lt_schematic ht hi

/-- Facts of both kinds in turn, one with a placeholder and one with a case analysis on its left. -/
theorem lookup_mixed :
    let a := Term.const "a"
    let calls : List Registration :=
      [.self a (.app "f" [a, .var 3]) a, .pair a (.app "f" [a, a]) (.var 0) a, .self a (.var 1) a,
        .pair a (.cases a []) (.app "f" [a]) a, .pair a (.app "f" [a]) a a,
        .pair a (.app "f" [.var 0, a]) a a]
    ∃ r : Registry, r.Records calls ∧ r.byShape .left "f" 2 = [1, 5, 0] ∧
      r.byHead .left "f" = [1, 4, 5, 0] ∧ r.byHead .right "f" = [3, 0] := by
  intro a calls
  have start : Records [] {} := .start rfl rfl rfl
  have h₃ := ((start.addTo calls[0] (by decide)).addTo calls[1] (by decide)).addTo calls[2]
    (by decide)
  have h := ((h₃.addTo calls[3] (by decide)).addTo calls[4] (by decide)).addTo calls[5] (by decide)
  obtain ⟨⟨hshape, -⟩, ⟨hhead, -⟩, -⟩ := lookup_eq_scan h .left "f" 2
  obtain ⟨-, ⟨hright, -⟩, -⟩ := lookup_eq_scan h .right "f" 0
  exact ⟨_, h, hshape.trans (by decide), hhead.trans (by decide), hright.trans (by decide)⟩

end Registry

end Monotonicity
