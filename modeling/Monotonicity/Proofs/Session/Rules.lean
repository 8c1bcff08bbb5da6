import Monotonicity.Proofs.Rule.Order
import Monotonicity.Session.Basic

/-!
# The rules of a session

Of all that a session can be told to do, two things add rules: to install the relators, and to add a
rule of the user's own. Whatever else happens in between, and also if commands are refused, the
table has the standard rules and those that were added, in stable order.

Runs that leave the table as it is are put together from such runs (`KeepsRules`); so a command
is gone through once, and a session by induction on its commands.
-/

namespace Monotonicity

/-! ## What leaves the table as it is -/

namespace Session

/-- The rules of a session, in the order in which they are tried. -/
def rules (s : Session) : List Rule := s.engine.theory.rules

namespace Run

variable {α β : Type}

/-- A run leaves the table of rules as it is, also if it ends in a refusal. -/
def KeepsRules (x : Run α) : Prop := ∀ s : Session, (x.run s).2.rules = s.rules

namespace KeepsRules

protected theorem pure (a : α) : KeepsRules (pure a) := fun _ => rfl

protected theorem throw (why : Refusal) : KeepsRules (throw why : Run α) := fun _ => rfl

protected theorem get : KeepsRules (get : Run Session) := fun _ => rfl

protected theorem modify {f : Session → Session} (h : ∀ s, (f s).rules = s.rules) :
    KeepsRules (modify f : Run Unit) := h

protected theorem bind {x : Run α} {f : α → Run β} (hx : KeepsRules x) (hf : ∀ a, KeepsRules (f a)) :
    KeepsRules (x >>= f) := by
  intro s
  have hs := hx s
  have hrun : (x >>= f).run s = (ExceptT.bindCont f (x.run s).1).run (x.run s).2 := rfl
  rw [hrun]
  cases (x.run s).1 with
  | ok a => exact (hf a _).trans hs
  | error why => exact hs

protected theorem forIn {γ : Type} {f : γ → β → Run (ForInStep β)} (hf : ∀ c b, KeepsRules (f c b)) :
    ∀ (l : List γ) (b : β), KeepsRules (forIn l b f)
  | [], b => .pure b
  | c :: l, b => by
    rw [List.forIn_cons]
    refine .bind (hf c b) fun r => ?_
    cases r with
    | done b => exact .pure b
    | yield b => exact .forIn hf l b

theorem require (o : Option α) : KeepsRules (require o) := by
  cases o with
  | some a => exact .pure a
  | none => exact .throw .malformed

theorem mention (names : List String) : KeepsRules (mention names) := .modify fun _ => rfl

theorem share (t : Term) : KeepsRules (share t) :=
  .bind .get fun _ => .bind (.modify fun _ => rfl) fun _ => .pure _

theorem term (e : Expr) : KeepsRules (term e) :=
  .bind (.mention _) fun _ => .bind .get fun _ => .bind (.require _) .share

theorem terms : ∀ es : List Expr, KeepsRules (terms es)
  | [] => .pure _
  | e :: es => .bind (.term e) fun _ => .bind (terms es) fun _ => .pure _

theorem goal (e : GoalExpr) : KeepsRules (goal e) := by
  refine .bind (.mention _) fun _ => .bind .get fun _ => .bind (.require _) fun g => ?_
  cases g with
  | related rel left right =>
    exact .bind (.share rel) fun _ => .bind (.share left) fun _ => .bind (.share right) fun _ =>
      .pure _
  | subrel lesser greater =>
    exact .bind (.share lesser) fun _ => .bind (.share greater) fun _ => .pure _

theorem goals : ∀ es : List GoalExpr, KeepsRules (goals es)
  | [] => .pure _
  | e :: es => .bind (.goal e) fun _ => .bind (goals es) fun _ => .pure _

theorem hyps : ∀ es : List HypExpr, KeepsRules (hyps es)
  | [] => .pure _
  | _ :: es => .bind (.mention _) fun _ => .bind .get fun _ => .bind (.require _) fun _ =>
      .bind (hyps es) fun _ => .pure _

theorem proof (e : ProofExpr) : KeepsRules (proof e) :=
  .bind (.mention _) fun _ => .bind .get fun _ => .require _

theorem field (e : FieldExpr) : KeepsRules (field e) := by
  cases e with
  | arg i => exact .pure _
  | fixed e => exact .bind (.term e) fun _ => .pure _
  | recursive => exact .pure _

theorem fields : ∀ es : List FieldExpr, KeepsRules (fields es)
  | [] => .pure _
  | e :: es => .bind (.field e) fun _ => .bind (fields es) fun _ => .pure _

theorem cases : ∀ es : List CaseExpr, KeepsRules (cases es)
  | [] => .pure _
  | _ :: es => .bind (.mention _) fun _ => .bind (.fields _) fun _ => .bind (cases es) fun _ =>
      .pure _

theorem registry : KeepsRules registry := .bind .get fun _ => .pure _

theorem setRegistry (f : Registry → Registry) : KeepsRules (setRegistry f) := .modify fun _ => rfl

theorem register (added : Option (Nat × Registry)) : KeepsRules (register added) := by
  cases added with
  | none => exact .throw _
  | some added => exact .bind (.setRegistry _) fun _ => .pure _

theorem setLocal (name : String) (t : Term) : KeepsRules (setLocal name t) := .modify fun _ => rfl

theorem number (t : Term) : KeepsRules (number t) :=
  .bind .get fun _ => .bind (.modify fun _ => rfl) fun _ => .pure _

/-- The state that is read may be used in what follows. -/
theorem of_get {f : Session → Run α} (h : ∀ s : Session, ((f s).run s).2.rules = s.rules) :
    KeepsRules (get >>= f) := h

theorem set_then {s s' : Session} {f : PUnit → Run α} (hs : s'.rules = s.rules)
    (hf : KeepsRules (f ⟨⟩)) : ((set s' >>= f : Run α).run s).2.rules = s.rules :=
  (hf s').trans hs

theorem ask {query : Engine → Answer β × Engine}
    (h : ∀ E, (query E).2.theory = E.theory) : KeepsRules (ask query) := by
  refine of_get fun s => set_then (congrArg Theory.rules (h s.engine)) ?_
  split
  · exact .pure _
  · exact .throw _

theorem built (name : Option String) (t : Option Term) : KeepsRules (built name t) := by
  cases name with
  | none => exact .pure _
  | some x =>
    cases t with
    | none => exact .pure _
    | some t => exact .bind (.share t) fun u => .bind (.setLocal x u) fun _ => .pure _

theorem assume : ∀ hs : List Hypothesis, KeepsRules (assume hs)
  | [] => .pure _
  | _ :: hs => .bind .registry fun _ => .bind (.register _) fun _ => assume hs

end KeepsRules

end Run

end Session

/-- Whether a command is for adding rules. -/
def Command.addsRules : Command → Bool
  | .relators | .rule .. => true
  | _ => false

namespace Session

open Run in
/-- Only commands for adding rules change the table. -/
theorem keepsRules_exec {c : Command} (h : c.addsRules = false) : KeepsRules (exec c) := by
  -- Each command is a chain of parts that keep the table, up to where it branches.
  cases c with
  | relators | rule => cases h
  | limits => exact .bind (.modify fun _ => rfl) fun _ => .pure _
  | bindLocal => exact .bind (.term _) fun _ => .bind (.setLocal _ _) fun _ => .pure _
  | combinator | parameters =>
    exact .bind (.mention _) fun _ => .bind (.setRegistry _) fun _ => .pure _
  | fact =>
    exact .bind (.term _) fun _ => .bind (.term _) fun _ => .bind (.term _) fun _ =>
      .bind (.term _) fun _ => .bind .registry fun _ => .bind (.register _) fun _ => .pure _
  | selfFact | inclusion =>
    exact .bind (.term _) fun _ => .bind (.term _) fun _ => .bind (.term _) fun _ =>
      .bind .registry fun _ => .bind (.register _) fun _ => .pure _
  | scheme =>
    exact .bind (.mention _) fun _ => .bind (.cases _) fun _ => .bind (.setRegistry _) fun _ =>
      .pure _
  | computation =>
    exact .bind (.term _) fun _ => .bind (.term _) fun _ => .bind (.setRegistry _) fun _ => .pure _
  | solve =>
    exact .bind (.goal _) fun g => .bind (.ask fun E => E.theory_query ..) fun _ =>
      .bind (.modify fun _ => rfl) fun _ => .pure _
  | reify =>
    refine .bind .get fun s => ?_
    split <;> exact .pure _
  | discharge index assuming shown =>
    refine .bind .get fun s => ?_
    split
    · exact .pure _
    · refine .bind (.require _) fun p => ?_
      cases assuming with
      | true =>
        exact .bind (.assume _) fun _ => .bind (.ask fun E => E.theory_query ..) fun _ => .pure _
      | false => exact .bind (.ask fun E => E.theory_query ..) fun _ => .pure _
  | transport lifted edge t value =>
    refine .bind (.term _) fun t => .bind (.term _) fun value =>
      .bind (.ask fun E => E.theory_transport ..) fun answer => ?_
    split
    · exact .bind (.modify fun _ => rfl) fun _ => .pure _
    · exact .pure _
  | lookupFacts | getHead | getCase =>
    exact .bind (.mention _) fun _ => .bind .registry fun _ => .pure _
  | getFact | getInclusion =>
    refine .bind .registry fun r => ?_
    split <;> exact .pure _
  | getComputation => exact .bind (.term _) fun _ => .bind .registry fun _ => .pure _
  | counts | listRules | lookup | snapshot => exact .bind .get fun _ => .pure _
  | relator =>
    refine .bind (.terms _) fun _ => .bind .get fun _ => ?_
    split
    · exact .pure _
    · exact .throw _
  | fieldRelation =>
    exact .bind (.field _) fun _ => .bind (.term _) fun _ => .bind (.terms _) fun _ => .pure _
  | symbol => exact .bind .get fun _ => .bind (.mention _) fun _ => .pure _
  | mint | checkpoint | truncate =>
    exact .bind .get fun _ => .bind (.modify fun _ => rfl) fun _ => .pure _
  | term => exact .bind (.term _) fun _ => .pure _
  | same =>
    exact .bind (.term _) fun _ => .bind (.term _) fun _ => .bind (.number _) fun _ =>
      .bind (.number _) fun _ => .pure _
  | goal => exact .bind (.goal _) fun _ => .bind .get fun _ => .pure _
  | apply => exact .bind (.term _) fun _ => .bind (.terms _) fun _ => .built _ _
  | take => exact .bind (.term _) fun _ => .built _ _
  | rename =>
    refine .bind (.term _) fun _ => ?_
    split
    · exact .built _ _
    · exact .throw _
  | view | occurs | walk | substitute => exact .bind (.term _) fun _ => .bind .get fun _ => .pure _
  | family =>
    exact .bind (.term _) fun _ => .bind (.term _) fun _ => .bind (.term _) fun _ =>
      .bind (.term _) fun _ => .bind .get fun _ => .pure _
  | fits g patterns =>
    refine .bind (.goal _) fun _ => .bind (.forIn (fun p _ => ?_) _ _) fun _ => .bind .get fun _ =>
      .pure _
    split
    · exact .bind (.mention _) fun _ => .pure _
    · exact .pure _
  | unify =>
    exact .bind (.term _) fun t => .bind (.term _) fun u => .bind .get fun s =>
      .bind (.modify fun _ => rfl) fun _ => .pure _
  | bind =>
    refine .bind (.term _) fun _ => .bind .get fun _ => ?_
    dsimp only
    split
    · exact .throw _
    · exact .bind (.modify fun _ => rfl) fun _ => .pure _
  | rollback =>
    exact .bind .get fun _ => .bind (.require _) fun _ => .bind .get fun _ =>
      .bind (.modify fun _ => rfl) fun _ => .pure _
  | defer =>
    exact .bind (.goal _) fun _ => .bind (.hyps _) fun _ => .bind .get fun _ =>
      .bind (.modify fun _ => rfl) fun _ => .pure _
  | close => exact .bind .get fun _ => .bind .get fun _ => .pure _
  | conj => exact .bind (.goals _) fun _ => .pure _
  | proof => exact .bind (.proof _) fun _ => .pure _
  | stats n =>
    simp only [exec]
    split
    · exact .pure _
    · exact .throw _
  | failure => exact .pure _

/-! ## What is added -/

/-- The rules that a command adds, in order. -/
def added (s : Session) : Command → List Rule
  | .relators => Relator.all.map Relator.rule
  | .rule name priority pattern body => [⟨name, priority, pattern, body.method s.locals⟩]
  | _ => []

/-- The session after commands, whether these were carried out or refused. -/
def after (s : Session) (commands : List Command) : Session :=
  commands.foldl (fun s c => (s.step c).2) s

/-- The rules that commands add, in order. -/
def addedAll (s : Session) : List Command → List Rule
  | [] => []
  | c :: commands => s.added c ++ (s.step c).2.addedAll commands

end Session

theorem Theory.rules_foldl_addRelator (T : Theory) (rs : List Relator) :
    (rs.foldl addRelator T).rules = Rule.insertAll (rs.map Relator.rule) T.rules := by
  induction rs generalizing T with
  | nil => rfl
  | cons r rs ih => exact ih (T.addRelator r)

namespace Session

/-- A command inserts the rules that it adds, one after the other. -/
theorem rules_step (s : Session) (c : Command) :
    (s.step c).2.rules = Rule.insertAll (s.added c) s.rules := by
  cases c with
  | relators => exact s.engine.theory.rules_foldl_addRelator Relator.all
  | rule name priority pattern body =>
    simp only [step, exec]
    split <;> rfl
  | _ => exact keepsRules_exec rfl s

theorem rules_after (s : Session) (commands : List Command) :
    (s.after commands).rules = Rule.insertAll (s.addedAll commands) s.rules := by
  induction commands generalizing s with
  | nil => rfl
  | cons c commands ih =>
    rw [addedAll, Rule.insertAll, List.foldl_append, ← Rule.insertAll, ← Rule.insertAll,
      ← rules_step, ← ih]
    rfl

theorem rules_after_new (limits : Limits) (commands : List Command) :
    ((new limits).after commands).rules =
      Rule.insertAll (Rule.standard ++ (new limits).addedAll commands) [] := by
  rw [rules_after, Rule.insertAll, Rule.insertAll, List.foldl_append]
  rfl

/-- If places in a table are found by a search that is right where the rules up to a priority stand
before all others, then the table of any calls is their stable sort, and there is no other. It is
the one that halving leads to and the one that sorting by merging gives. So the table that
`register` makes in a session is the stable sort of the standard rules and all rules that commands
added, those of relators and the user's own in any order, and rules are listed in this order. -/
theorem rules_stably_sorted {point : (Rule → Bool) → List Rule → Nat} (hpoint : FindsEnd point) :
    (∀ calls table : List Rule, Rule.StableSort calls table ↔ table = Rule.register point calls) ∧
    (∀ calls : List Rule, Rule.insertAll calls [] = Rule.register point calls ∧
      Rule.register point calls = calls.mergeSort fun a b => a.priority ≤ b.priority) ∧
    ∀ (limits : Limits) (commands : List Command),
      let s := (new limits).after commands
      let table := Rule.register point (Rule.standard ++ (new limits).addedAll commands)
      s.rules = table ∧
      (s.step .listRules).1 = .ok (.rules (table.map fun r => (r.name, r.priority))) := by
  have hregister (calls : List Rule) : Rule.StableSort calls (Rule.register point calls) :=
    Rule.stableSort_register hpoint calls
  refine ⟨fun calls table => ⟨fun h => h.unique (hregister calls), ?_⟩, fun calls => ⟨?_, ?_⟩,
    fun limits commands => ?_⟩
  · rintro rfl
    exact hregister calls
  · exact Rule.insertAll_eq_register hpoint calls
  · exact (hregister calls).unique (Rule.stableSort_mergeSort calls)
  · have hrules : ((new limits).after commands).rules =
        Rule.register point (Rule.standard ++ (new limits).addedAll commands) := by
      rw [rules_after_new, Rule.insertAll_eq_register hpoint]
    refine ⟨hrules, ?_⟩
    rw [← hrules]
    rfl

/-- Rules come before, between and after the relators, and the relators twice. -/
theorem rules_stably_sorted_mixed :
    let own (name : String) (priority : Int) : Command := .rule name priority .any (.script [])
    let commands : List Command :=
      [own "late" 50, own "first" 10, .relators, own "second" 10, .counts, own "middle" 20,
        .relators, own "earliest" (-1)]
    let s := (new {}).after commands
    FindsEnd (@partitionPoint Rule) ∧
    Rule.StableSort (Rule.standard ++ (new {}).addedAll commands) s.rules ∧
    (s.step .listRules).1 = .ok (.rules
      [("earliest", -1), ("top", 10), ("eq_refl", 10), ("flip_intro", 10), ("first", 10),
        ("second", 10), ("arrow_intro", 11), ("forall_intro", 11), ("match_reduce", 12),
        ("option_rel_intro", 13), ("prod_rel_intro", 13), ("sum_rel_intro", 13),
        ("list_rel_intro", 13), ("option_rel_intro", 13), ("prod_rel_intro", 13),
        ("sum_rel_intro", 13), ("list_rel_intro", 13), ("subrel_refl", 20), ("subrel_extremes", 20),
        ("middle", 20), ("subrel_fact", 21), ("subrel_structural", 22), ("subrel_trans", 29),
        ("destruct", 30), ("mono_left", 40), ("mono_right", 41), ("eq_congruence", 45),
        ("eq_unify", 50), ("late", 50), ("refl_placeholder", 51), ("defer_unsolved", 90)]) := by
  intro own commands s
  obtain ⟨hstable, -, hsession⟩ := rules_stably_sorted (@findsEnd_partitionPoint Rule)
  obtain ⟨hrules, hlist⟩ := hsession {} commands
  refine ⟨findsEnd_partitionPoint, (hstable _ _).2 hrules, hlist.trans ?_⟩
  refine congrArg (fun listed => Except.ok (Reply.rules listed)) ?_
  decide +kernel

end Session

end Monotonicity
