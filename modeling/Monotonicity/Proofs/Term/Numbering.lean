import Monotonicity.Proofs.Term.Numbers

/-!
# Numbers stand for terms

Calls to a store mention numbers that it gave before and are answered by numbers, or by nothing: only
applications can be extended or cut back. As long as no more nodes were added than there are numbers,
the store stays well-formed from call to call (`Call.Answered`), and comparing numbers is comparing
terms, at whatever times they were given (`number_eq_iff_term_eq`). The node after that overwrites
the first, and from then on this fails: `numbers_run_out`.
-/

namespace Monotonicity

namespace Store

variable {s s' : Store} {n : Node} {t : Term} {id : UInt32}

/-! ## Calls -/

/-- What can be asked of a store: the number of a term that is given by its parts, made from another
one, or given as it is. Bindings are listed with the latest first. -/
inductive Call where
  | var (index : Nat)
  | app (head : String) (args : List UInt32)
  | cases (scrutinee : UInt32) (arms : List (Arm UInt32))
  | extend (id : UInt32) (extra : List UInt32)
  | take (id : UInt32) (length : Nat)
  | rename (id : UInt32) (offset : Nat)
  | resolve (bindings : List (Nat × UInt32)) (id : UInt32)
  | put (t : Term)

/-- The bindings of placeholders to what numbers stand for. -/
def subst? (s : Store) : List (Nat × UInt32) → Option Subst
  | [] => some .empty
  | (i, id) :: rest => do return (← s.subst? rest).bind i (← s.term? id)

theorem stands_iff {bindings : List (Nat × UInt32)} {σ : Subst} :
    s.Stands bindings σ ↔ s.subst? bindings = some σ := by
  induction bindings generalizing σ with
  | nil => cases σ <;> simp [Stands, subst?, Subst.trail]
  | cons b rest ih =>
    obtain ⟨i, id⟩ := b
    simp only [subst?, Option.bind_eq_bind, Option.bind_eq_some_iff, ← ih]
    constructor
    · intro h
      cases σ with
      | empty => cases h
      | bind σ j t =>
        obtain _ | ⟨⟨rfl, ht⟩, hrest⟩ := h
        exact ⟨σ, hrest, t, ht, rfl⟩
    · rintro ⟨σ, hrest, t, ht, ⟨⟩⟩
      exact .cons ⟨rfl, ht⟩ hrest

namespace Call

/-- The numbers that a call mentions. -/
def numbers : Call → List UInt32
  | .var _ => []
  | .app _ ids => ids
  | .cases id arms => id :: arms.map (·.body)
  | .extend id extra => id :: extra
  | .take id _ => [id]
  | .rename id _ => [id]
  | .resolve bindings id => id :: bindings.map Prod.snd
  | .put _ => []

/-- The term that a call asks for. -/
def term? (s : Store) : Call → Option Term
  | .var i => some (.var i)
  | .app head ids => (Node.app head ids).term? s.term?
  | .cases id arms => (Node.cases id arms).term? s.term?
  | .extend id extra => do (← s.term? id).extend? (← extra.mapM s.term?)
  | .take id length => do (← s.term? id).take? length
  | .rename id offset => do return (← s.term? id).rename offset
  | .resolve bindings id => do return (← s.subst? bindings).resolve (← s.term? id)
  | .put t => some t

/-- A number as an answer. -/
def answer (r : UInt32 × Store) : Option UInt32 × Store := (some r.1, r.2)

def run (s : Store) : Call → Option (Option UInt32 × Store)
  | .var i => some (answer (s.intern (.var i)))
  | .app head ids => some (answer (s.intern (.app head ids)))
  | .cases id arms => some (answer (s.intern (.cases id arms)))
  | .extend id extra => some (((s.extend id extra).map answer).getD (none, s))
  | .take id length => some (((s.take id length).map answer).getD (none, s))
  | .rename id offset => (s.rename offset id).map answer
  | .resolve bindings id => (s.resolve bindings id).map answer
  | .put t => some (answer (s.put t))

/-- The answer to a call and the store that is left, if the call comes to an end. All numbers that it
mentions have to be in use. -/
def perform (s : Store) (call : Call) : Option (Option UInt32 × Store) :=
  if call.numbers.all (·.toNat < s.nodes.size) then call.run s else none

theorem perform_of_known {s : Store} {call : Call}
    (h : ∀ c ∈ call.numbers, c.toNat < s.nodes.size) : call.perform s = call.run s := by
  rw [perform, if_pos]
  simpa using h

/-- The bindings that a call mentions do not run in a circle. -/
def Straight (s : Store) : Call → Prop
  | .resolve bindings _ => ∀ σ, s.subst? bindings = some σ → σ.Acyclic
  | _ => True

/-- A call was answered: the store has all that was there before, and the number that was given, if
any, stands for the term that was asked for. Where bindings run in a circle, it stands for some
term. -/
structure Answered (s : Store) (call : Call) (r : Option UInt32 × Store) : Prop where
  wellFormed : r.2.WellFormed
  le : s ≤ r.2
  term : ∃ asked, Option.Rel (fun id t => r.2.term? id = some t) r.1 asked ∧
    (call.Straight s → asked = call.term? s)

variable {call : Call}

theorem Answered.of_given {r : UInt32 × Store} (h : s.Given r t)
    (ht : call.Straight s → some t = call.term? s) : call.Answered s (answer r) :=
  ⟨h.wellFormed, h.le, some t, .some h.term, ht⟩

theorem Answered.nothing (hs : s.WellFormed) (ht : call.term? s = none) :
    call.Answered s (none, s) :=
  ⟨hs, le_refl s, none, .none, fun _ => ht.symm⟩

end Call

theorem exists_node? (h : id.toNat < s.nodes.size) : ∃ n, s.node? id = some n :=
  ⟨_, Array.getElem?_eq_getElem h⟩

namespace WellFormed

variable {call : Call}

theorem answered_intern (hs : s.WellFormed) (hn : ∀ c ∈ n.children, c.toNat < s.nodes.size)
    (hterm : call.term? s = n.term? s.term?) (hroom : (s.intern n).2.count ≤ UInt32.size) :
    call.Answered s (Call.answer (s.intern n)) := by
  obtain ⟨t, ht⟩ := Node.exists_shows fun c hc => hs.ordered.exists_term? (hn c hc)
  refine .of_given (hs.given_intern ht hroom) fun _ => ?_
  rw [hterm, Node.term?_eq_some_iff.2 ht]

theorem exists_subst? (hs : s.WellFormed) {bindings : List (Nat × UInt32)}
    (h : ∀ c ∈ bindings.map Prod.snd, c.toNat < s.nodes.size) : ∃ σ, s.subst? bindings = some σ := by
  induction bindings with
  | nil => exact ⟨_, rfl⟩
  | cons b rest ih =>
    obtain ⟨i, id⟩ := b
    simp only [List.map_cons, List.forall_mem_cons] at h
    obtain ⟨t, ht⟩ := hs.ordered.exists_term? h.1
    obtain ⟨σ, hσ⟩ := ih h.2
    exact ⟨σ.bind i t, by simp [subst?, hσ, ht]⟩

theorem children_lt (hs : s.WellFormed) (hn : s.node? id = some n) {c : UInt32}
    (hc : c ∈ n.children) : c.toNat < s.nodes.size := by
  obtain ⟨t, -, hshows⟩ := hs.term?_of_node hn
  obtain ⟨u, hu⟩ := exists_of_forall₂_of_mem hshows.children hc
  exact lt_size_of_term? hu

theorem answered_extend (hs : s.WellFormed) {extra : List UInt32}
    (hknown : ∀ c ∈ id :: extra, c.toNat < s.nodes.size)
    (hroom : (((s.extend id extra).map Call.answer).getD (none, s)).2.count ≤ UInt32.size) :
    (Call.extend id extra).Answered s (((s.extend id extra).map Call.answer).getD (none, s)) := by
  obtain ⟨hid, hextra⟩ := List.forall_mem_cons.1 hknown
  obtain ⟨n, hn⟩ := exists_node? hid
  obtain ⟨t, ht, hshows⟩ := hs.term?_of_node hn
  cases hshows with
  | var i =>
    simp only [Store.extend, hn]
    exact .nothing hs (by simp [Call.term?, ht, Term.extend?])
  | @app head ids ts hargs =>
    simp only [Store.extend, hn] at hroom ⊢
    refine hs.answered_intern (fun c hc => ?_) ?_ hroom
    · rcases List.mem_append.1 hc with hc | hc
      · exact hs.children_lt hn hc
      · exact hextra c hc
    · rw [Call.term?, Node.term?, ht, List.mapM_append, mapM_eq_some_iff.2 hargs]
      cases extra.mapM s.term? <;> rfl
  | cases hscrutinee harms =>
    simp only [Store.extend, hn]
    exact .nothing hs (by simp [Call.term?, ht, Term.extend?])

theorem answered_take (hs : s.WellFormed) {length : Nat} (hid : id.toNat < s.nodes.size)
    (hroom : (((s.take id length).map Call.answer).getD (none, s)).2.count ≤ UInt32.size) :
    (Call.take id length).Answered s (((s.take id length).map Call.answer).getD (none, s)) := by
  obtain ⟨n, hn⟩ := exists_node? hid
  obtain ⟨t, ht, hshows⟩ := hs.term?_of_node hn
  have hasked : (Call.take id length).term? s = t.take? length := by simp [Call.term?, ht]
  cases hshows with
  | var i =>
    simp only [Store.take, hn]
    exact .nothing hs hasked
  | @app head ids ts hargs =>
    simp only [Store.take, hn] at hroom ⊢
    by_cases hlength : length ≤ ids.length
    · rw [if_pos hlength] at hroom ⊢
      refine hs.answered_intern (fun c hc => hs.children_lt hn (List.mem_of_mem_take hc)) ?_ hroom
      rw [hasked, Term.take?, if_pos (hargs.length_eq ▸ hlength), Node.term?,
        mapM_eq_some_iff.2 (List.forall₂_take length hargs)]
      rfl
    · rw [if_neg hlength]
      refine .nothing hs ?_
      rw [hasked, Term.take?, if_neg (hargs.length_eq ▸ hlength)]
  | cases hscrutinee harms =>
    simp only [Store.take, hn]
    exact .nothing hs hasked

/-- A call to a well-formed store leaves one, unless it runs out of numbers. -/
theorem answered (hs : s.WellFormed) {r : Option UInt32 × Store} (h : call.perform s = some r)
    (hroom : r.2.count ≤ UInt32.size) : call.Answered s r := by
  rw [Call.perform] at h
  split at h
  · next hall =>
    have hknown : ∀ c ∈ call.numbers, c.toNat < s.nodes.size := by simpa using hall
    cases call with
    | var i =>
      cases h
      exact hs.answered_intern hknown rfl hroom
    | app head ids =>
      cases h
      exact hs.answered_intern hknown rfl hroom
    | cases id arms =>
      cases h
      exact hs.answered_intern hknown rfl hroom
    | extend id extra =>
      cases h
      exact hs.answered_extend hknown hroom
    | take id length =>
      cases h
      exact hs.answered_take (hknown id List.mem_cons_self) hroom
    | rename id offset =>
      obtain ⟨r, hr, rfl⟩ := Option.map_eq_some_iff.1 h
      obtain ⟨t, ht⟩ := hs.ordered.exists_term? (hknown id List.mem_cons_self)
      obtain ⟨u, rfl, hgiven⟩ := (renameFor_answers hr).given hs trivial hroom t ht
      exact .of_given hgiven fun _ => by simp [Call.term?, ht]
    | resolve bindings id =>
      obtain ⟨hid, hbound⟩ := List.forall_mem_cons.1 hknown
      obtain ⟨r, hr, rfl⟩ := Option.map_eq_some_iff.1 h
      obtain ⟨t, ht⟩ := hs.ordered.exists_term? hid
      obtain ⟨σ, hσ⟩ := hs.exists_subst? hbound
      obtain ⟨u, hu, hgiven⟩ := (resolveFor_answers hr).given hs (stands_iff.2 hσ) hroom t ht
      refine .of_given hgiven fun hstraight => ?_
      simp [Call.term?, hσ, ht, hu (hstraight σ hσ)]
    | put t =>
      cases h
      exact .of_given (enters t hs hroom) fun _ => rfl
  · cases h

end WellFormed

theorem count_le_perform {call : Call} {r : Option UInt32 × Store} (h : call.perform s = some r) :
    s.count ≤ r.2.count := by
  rw [Call.perform] at h
  split at h
  · cases call with
    | var i =>
      cases h
      exact count_le_intern s _
    | app head ids =>
      cases h
      exact count_le_intern s _
    | cases id arms =>
      cases h
      exact count_le_intern s _
    | extend id extra =>
      cases h
      rw [extend]
      split
      · exact count_le_intern s _
      · exact le_rfl
    | take id length =>
      cases h
      rw [take]
      split
      · split
        · exact count_le_intern s _
        · exact le_rfl
      · exact le_rfl
    | rename id offset =>
      obtain ⟨r, hr, rfl⟩ := Option.map_eq_some_iff.1 h
      exact (renameFor_answers hr).count_le
    | resolve bindings id =>
      obtain ⟨r, hr, rfl⟩ := Option.map_eq_some_iff.1 h
      have hanswers : Answers (fun s => s.Stands bindings .empty) _ s id r := resolveFor_answers hr
      exact hanswers.count_le
    | put t =>
      cases h
      exact count_le_put t s
  · cases h

/-! ## Calls one after the other -/

/-- The store after further calls, if all of them come to an end. -/
def continue? (s : Store) (calls : List Call) : Option Store :=
  calls.foldlM (fun s call => (call.perform s).map Prod.snd) s

/-- The store after calls to an empty one. -/
def after? (calls : List Call) : Option Store := continue? {} calls

theorem continue?_cons {call : Call} {calls : List Call} :
    s.continue? (call :: calls) = some s' ↔
      ∃ r, call.perform s = some r ∧ r.2.continue? calls = some s' := by
  simp only [continue?, List.foldlM_cons, Option.bind_eq_bind, Option.bind_eq_some_iff,
    Option.map_eq_some_iff]
  constructor
  · rintro ⟨_, ⟨r, hr, rfl⟩, hrest⟩
    exact ⟨r, hr, hrest⟩
  · rintro ⟨r, hr, hrest⟩
    exact ⟨r.2, ⟨r, hr, rfl⟩, hrest⟩

theorem continue?_append {calls more : List Call} :
    s.continue? (calls ++ more) = (s.continue? calls).bind (·.continue? more) := by
  simp [continue?, List.foldlM_append]

theorem count_le_continue {calls : List Call} (h : s.continue? calls = some s') :
    s.count ≤ s'.count := by
  induction calls generalizing s with
  | nil =>
    cases h
    exact le_rfl
  | cons call calls ih =>
    obtain ⟨r, hr, hrest⟩ := continue?_cons.1 h
    exact (count_le_perform hr).trans (ih hrest)

theorem WellFormed.continue {calls : List Call} (hs : s.WellFormed)
    (h : s.continue? calls = some s') (hroom : s'.count ≤ UInt32.size) : s'.WellFormed ∧ s ≤ s' := by
  induction calls generalizing s with
  | nil =>
    cases h
    exact ⟨hs, le_refl _⟩
  | cons call calls ih =>
    obtain ⟨r, hr, hrest⟩ := continue?_cons.1 h
    have hanswered := hs.answered hr ((count_le_continue hrest).trans hroom)
    obtain ⟨hs', hle⟩ := ih hanswered.wellFormed hrest
    exact ⟨hs', hanswered.le.trans hle⟩

/-- What a number in use stands for, and its node, are there for good. -/
theorem WellFormed.stays (hs : s.WellFormed) (hle : s ≤ s') (hid : id.toNat < s.nodes.size) :
    s'.node? id = s.node? id ∧ s'.term? id = s.term? id := by
  obtain ⟨n, hn⟩ := exists_node? hid
  obtain ⟨t, ht⟩ := hs.ordered.exists_term? hid
  exact ⟨(hle id n hn).trans hn.symm, (term?_mono hle ht).trans ht.symm⟩

/-- What can be done with a number of a term comes to an end and to what it comes to for the term,
as long as there are numbers for all nodes of the result. -/
structure Serves (s : Store) (id : UInt32) (t : Term) : Prop where
  maxVar : s.maxVar id = some t.maxVar?
  write : ∀ out, s.write out id = some (t.write out)
  rename : ∀ offset, (∀ i ∈ t.vars, i + offset < indexBound) → s.count + t.size ≤ UInt32.size →
    ∃ r, s.rename offset id = some r ∧ r.2.term? r.1 = some (t.rename offset)
  resolve : ∀ bindings σ, s.subst? bindings = some σ → σ.Acyclic →
    s.count + (σ.resolve t).size ≤ UInt32.size →
    ∃ r, s.resolve bindings id = some r ∧ r.2.term? r.1 = some (σ.resolve t)

theorem WellFormed.serves (hs : s.WellFormed) (ht : s.term? id = some t) : s.Serves id t where
  maxVar := maxVar_eq ht
  write := write_eq ht
  rename offset hbound hroom := by
    obtain ⟨r, hr, hcount⟩ := rename_ends hbound id s hs trivial ht hroom
    obtain ⟨u, rfl, hgiven⟩ := (renameFor_answers hr).given hs trivial (hcount.trans hroom) t ht
    exact ⟨r, hr, hgiven.term⟩
  resolve bindings σ hσ hacyclic hroom := by
    have hstands := stands_iff.2 hσ
    obtain ⟨r, hr, hcount⟩ := resolve_ends hacyclic t id s hs hstands ht hroom
    obtain ⟨u, hu, hgiven⟩ := (resolveFor_answers hr).given hs hstands (hcount.trans hroom) t ht
    exact ⟨r, hr, hu hacyclic ▸ hgiven.term⟩

/-- In a store that only calls were made to, and to which no more nodes were added than there are
numbers, every number in use stands for one finite term and no two stand for the same, at whatever
times they were given. By `intern`, a call is answered by the number of the term it asks for; what a
number stands for does not change; children have smaller numbers than their parents, and what is
done with numbers comes to an end, as does every traversal. -/
theorem number_eq_iff_term_eq {calls : List Call} (h : after? calls = some s)
    (hroom : s.count ≤ UInt32.size) :
    (∀ id id' t t', s.term? id = some t → s.term? id' = some t' → (id = id' ↔ t = t')) ∧
    (∀ before call later mid r, calls = before ++ call :: later → after? before = some mid →
      call.perform mid = some r →
        (∀ id, r.1 = some id → ∃ t, s.term? id = some t) ∧
        (call.Straight mid → r.1.map s.term? = (call.term? mid).map some)) ∧
    (∀ id, id.toNat < s.nodes.size → ∃ t, s.term? id = some t ∧ s.Serves id t) ∧
    (∀ more s', after? (calls ++ more) = some s' → s'.count ≤ UInt32.size → ∀ id,
      id.toNat < s.nodes.size → s'.node? id = s.node? id ∧ s'.term? id = s.term? id) ∧
    (∀ (id : UInt32) (n : Node), s.node? id = some n → ∀ c ∈ n.children, c < id) ∧
    WellFounded s.Round := by
  have hs : s.WellFormed := (wellFormed_empty.continue h hroom).1
  refine ⟨?_, ?_, ?_, ?_, hs.ordered, hs.ordered.wellFounded_round⟩
  · intro id id' t t' ht ht'
    constructor
    · rintro rfl
      exact Option.some.inj (ht.symm.trans ht')
    · rintro rfl
      exact hs.number_unique ht ht'
  · rintro before call later mid r rfl hmid hr
    rw [after?, continue?_append, ← after?, hmid, Option.bind_some] at h
    obtain ⟨r', hr', hrest⟩ := continue?_cons.1 h
    obtain rfl : r = r' := Option.some.inj (hr.symm.trans hr')
    have hroom' := (count_le_continue hrest).trans hroom
    have hmidWF := (wellFormed_empty.continue hmid ((count_le_perform hr).trans hroom')).1
    obtain ⟨hwf, -, asked, hasked, hstraight⟩ := hmidWF.answered hr hroom'
    have hle := (hwf.continue hrest hroom).2
    generalize r.1 = given at hasked
    cases hasked with
    | none =>
      refine ⟨by simp, fun hcall => ?_⟩
      rw [← hstraight hcall]
      rfl
    | some ht =>
      have hterm := term?_mono hle ht
      refine ⟨?_, fun hcall => ?_⟩
      · rintro _ ⟨⟩
        exact ⟨_, hterm⟩
      · rw [← hstraight hcall, Option.map_some, hterm, Option.map_some]
  · intro id hid
    obtain ⟨t, ht⟩ := hs.ordered.exists_term? hid
    exact ⟨t, ht, hs.serves ht⟩
  · intro more s' hmore hroom' id hid
    rw [after?, continue?_append, ← after?, h, Option.bind_some] at hmore
    exact hs.stays (hs.continue hmore hroom').2 hid

/-- The number of `f ?0` is renamed into that of `f ?2`. -/
theorem number_eq_iff_term_eq_renamed :
    ∃ s, after? [.var 0, .app "f" [0], .rename 1 2] = some s ∧ s.count ≤ UInt32.size ∧
      s.term? 1 = some (.app "f" [.var 0]) ∧ s.term? 3 = some (.app "f" [.var 2]) ∧
      ((1 : UInt32) = 3 ↔ Term.app "f" [.var 0] = .app "f" [.var 2]) := by
  let s₁ := (({} : Store).add (.var 0)).2
  let s₂ := (s₁.add (.app "f" [0])).2
  let s₃ := (s₂.add (.var 2)).2
  let s₄ := (s₃.add (.app "f" [2])).2
  have h₁ : (Call.var 0).perform {} = some (some 0, s₁) := by
    simp [Call.perform, Call.numbers, Call.run, Call.answer, intern, add, s₁]
  have h₂ : (Call.app "f" [0]).perform s₁ = some (some 1, s₂) := by
    simp [Call.perform, Call.numbers, Call.run, Call.answer, intern, add, s₂, s₁]
  have hvar (m : Nat) : renameFor 2 (m + 1) 0 s₂ = some (2, s₃) := by
    simp [renameFor, node?, intern, add, s₃, s₂, s₁, indexBound]
  have happ (m : Nat) : renameFor 2 (m + 2) 1 s₂ = some (3, s₄) := by
    have hn : s₂.node? 1 = some (.app "f" [0]) := rfl
    rw [renameFor]
    simp only [hn, each, hvar]
    simp [intern, add, s₄, s₃, s₂, s₁]
  have h₃ : (Call.rename 1 2).perform s₂ = some (some 3, s₄) := by
    have hknown : ∀ c ∈ (Call.rename 1 2).numbers, c.toNat < s₂.nodes.size := by
      intro c hc
      obtain rfl : c = 1 := List.mem_singleton.1 hc
      decide +kernel
    rw [Call.perform_of_known hknown, Call.run, rename, happ 4294967294]
    rfl
  have hafter : after? [.var 0, .app "f" [0], .rename 1 2] = some s₄ := by
    simp [after?, continue?, h₁, h₂, h₃]
  have hroom : s₄.count ≤ UInt32.size := by
    simp [count, s₄, s₃, s₂, s₁, add, Std.HashMap.size_insert, UInt32.size]
  obtain ⟨hunique, -⟩ := number_eq_iff_term_eq hafter hroom
  have hn₁ : s₄.node? 1 = some (.app "f" [0]) := by decide +kernel
  have hn₃ : s₄.node? 3 = some (.app "f" [2]) := by decide +kernel
  have ht : s₄.term? 1 = some (.app "f" [.var 0]) := term?_app_var hn₁ (by decide +kernel)
  have ht' : s₄.term? 3 = some (.app "f" [.var 2]) := term?_app_var hn₃ (by decide +kernel)
  exact ⟨s₄, hafter, hroom, ht, ht', hunique _ _ _ _ ht ht'⟩

/-! ## After the last number -/

/-- As long as there are numbers, placeholders get them in order. -/
theorem after?_vars {k : Nat} (hk : k ≤ UInt32.size) :
    ∃ s, after? ((List.range k).map .var) = some s ∧ s.WellFormed ∧ s.count = k ∧
      ∀ id, id.toNat < k → s.node? id = some (.var id.toNat) := by
  induction k with
  | zero => exact ⟨{}, rfl, wellFormed_empty, by simp [count], by simp⟩
  | succ k ih =>
    obtain ⟨s, hafter, hs, hcount, hnodes⟩ := ih (by omega)
    have hroom : s.count < UInt32.size := by omega
    have hnew : s.ids[Node.var k]? = none := by
      refine Option.eq_none_iff_forall_ne_some.2 fun id hid => ?_
      have hn := hs.ids.1 hid
      have hlt : id.toNat < k := by
        rw [← hcount, ← hs.size]
        exact lt_size_of_node? hn
      rw [hnodes id hlt] at hn
      simp only [Option.some.injEq, Node.var.injEq] at hn
      omega
    have hperform : (Call.var k).perform s = some (Call.answer (s.add (.var k))) := by
      rw [Call.perform_of_known (by simp [Call.numbers]), Call.run, intern, hnew]
    refine ⟨(s.add (.var k)).2, ?_, hs.add (by simp [Node.children]) hnew hroom, ?_, ?_⟩
    · rw [List.range_succ, List.map_append, after?, continue?_append, ← after?, hafter]
      exact continue?_cons.2 ⟨_, hperform, rfl⟩
    · rw [WellFormed.count_add hnew, hcount]
    · intro id hid
      have hnext : s.next.toNat = k := by rw [hs.toNat_next hroom, hs.size, hcount]
      rw [hs.node?_add_next hroom]
      split
      · next heq => rw [heq, hnext]
      · next hne =>
        have hne' : id.toNat ≠ k := fun h => hne (UInt32.toNat_inj.1 (h.trans hnext.symm))
        exact hnodes id (by omega)

/-- The last placeholder cannot be renamed. -/
theorem rename_last_var :
    ∃ s, after? [.var 4294967295] = some s ∧ (Call.rename 0 1).perform s = none := by
  let s₁ := (({} : Store).add (.var 4294967295)).2
  have hvar : (Call.var 4294967295).perform {} = some (some 0, s₁) := by
    simp [Call.perform, Call.numbers, Call.run, Call.answer, intern, add, s₁]
  have hrename (m : Nat) : renameFor 1 (m + 1) 0 s₁ = none := by
    simp [renameFor, node?, add, s₁, indexBound]
  refine ⟨s₁, by simp [after?, continue?, hvar], ?_⟩
  rw [Call.perform, Call.run, rename, hrename 4294967295]
  simp

/-- The number `0`, which was given for `?0`, is given again when all numbers are in use: for `f` of the
last placeholder. What it stands for is another term now, and its child has a larger number. Indices
run out as well: renaming the last placeholder comes to nothing. -/
theorem numbers_run_out :
    (∃ s s', ((Call.var 0).perform {}).map Prod.fst = some (some 0) ∧
      after? ((List.range UInt32.size).map .var) = some s ∧ s.term? 0 = some (.var 0) ∧
      (Call.app "f" [4294967295]).perform s = some (some 0, s') ∧
      s'.node? 0 = some (.app "f" [4294967295]) ∧
      s'.term? 0 = some (.app "f" [.var 4294967295])) ∧
    ∃ s, after? [.var 4294967295] = some s ∧ (Call.rename 0 1).perform s = none := by
  refine ⟨?_, rename_last_var⟩
  obtain ⟨s, hafter, hs, hcount, hnodes⟩ := after?_vars (Nat.le_refl UInt32.size)
  have hnew : s.ids[Node.app "f" [4294967295]]? = none := by
    refine Option.eq_none_iff_forall_ne_some.2 fun id hid => ?_
    have hn := hs.ids.1 hid
    rw [hnodes id id.toNat_lt] at hn
    cases hn
  have hnext : s.next = 0 := by
    rw [hs.next, hcount]
    rfl
  have hnode (id : UInt32) : (s.add (.app "f" [4294967295])).2.node? id =
      if id = 0 then some (.app "f" [4294967295]) else s.node? id := by
    rw [node?_add (by simp [hnext]), hnext]
  have hlast : (s.add (.app "f" [4294967295])).2.node? 4294967295 = some (.var 4294967295) := by
    rw [hnode, if_neg (by decide)]
    exact hnodes 4294967295 (by decide)
  have hknown : ∀ c ∈ (Call.app "f" [4294967295]).numbers, c.toNat < s.nodes.size := by
    intro c _
    rw [hs.size, hcount]
    exact c.toNat_lt
  refine ⟨s, (s.add (.app "f" [4294967295])).2, ?_, hafter, ?_, ?_, hnode 0, ?_⟩
  · simp [Call.perform, Call.numbers, Call.run, Call.answer, intern, add]
  · exact term?_var (hnodes 0 (by decide))
  · rw [Call.perform_of_known hknown, Call.run, intern, hnew, Call.answer, add, hnext]
  · exact term?_app_var (hnode 0) hlast

end Store

end Monotonicity
