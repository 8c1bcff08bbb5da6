import Mathlib.Algebra.BigOperators.Group.List.Basic
import Mathlib.Algebra.Order.Ring.Nat
import Mathlib.Data.List.Flatten
import Mathlib.Data.List.Perm.Basic
import Mathlib.Data.List.Range
import Monotonicity.Proofs.Calculus.Candidate
import Monotonicity.Proofs.Registry.Index

/-!
# Pruning by the number of parameters

If a head has a declared number of parameters, one look-up goes through all facts with that head,
and what it finds is sorted by the number of arguments covered. Otherwise there is one look-up for
each such number, from the largest on. Both are compared here with the list of all hypotheses and
facts by the side that is looked at (`Entry`).

A look-up renames every fact that it finds into a block of new placeholders, so it comes to an end
only if there is room for these blocks. `Takes` says this of a search, together with what it
returns.
-/

namespace Monotonicity

open Search Registration

/-- The number of arguments of an application. -/
def Term.arity : Term → Nat
  | .app _ args => args.length
  | _ => 0

@[simp] theorem Term.hasHead_app (head f : String) (args : List Term) :
    (Term.app f args).hasHead head = decide (f = head) := rfl

@[simp] theorem Term.arity_app (head : String) (args : List Term) :
    (Term.app head args).arity = args.length := rfl

theorem Term.hasShape_eq (head : String) (k : Nat) (t : Term) :
    t.hasShape head k = (t.hasHead head && t.arity = k) := by
  cases t <;> rfl

/-! ## Longest first -/

namespace Candidate

variable {c : Candidate} {cs ds : List Candidate}

/-- Where a candidate comes from, and how many arguments it covers. -/
def key (c : Candidate) : Source × Nat := (c.source, c.consumed)

theorem insert_eq_cons (h : ∀ d ∈ cs, d.consumed ≤ c.consumed) : c.insert cs = c :: cs := by
  cases cs with
  | nil => rfl
  | cons d cs => simp [insert, h d List.mem_cons_self]

theorem insert_append (h : ∀ d ∈ cs, c.consumed < d.consumed) :
    c.insert (cs ++ ds) = cs ++ c.insert ds := by
  induction cs with
  | nil => rfl
  | cons d cs ih =>
    have hd : ¬ d.consumed ≤ c.consumed := Nat.not_le.2 (h d List.mem_cons_self)
    simp [insert, hd, ih fun e he => h e (List.mem_cons_of_mem _ he)]

/-- The sort is stable: the candidates that cover the same number of arguments stay in order. -/
theorem longestFirst_eq {l : List Nat} (hl : l.Pairwise (· > ·)) (h : ∀ c ∈ cs, c.consumed ∈ l) :
    longestFirst cs = l.flatMap fun k => cs.filter (·.consumed = k) := by
  induction cs with
  | nil => simp [longestFirst]
  | cons c cs ih =>
    have hrest := ih fun d hd => h d (List.mem_cons_of_mem _ hd)
    obtain ⟨before, after, rfl⟩ := List.append_of_mem (h c List.mem_cons_self)
    obtain ⟨-, hafter, hbefore⟩ := List.pairwise_append.1 hl
    have hlonger : ∀ k ∈ before, c.consumed < k := fun k hk => hbefore k hk _ List.mem_cons_self
    have hshorter : ∀ k ∈ after, k < c.consumed := (List.pairwise_cons.1 hafter).1
    -- only the candidates in the middle cover as many arguments as the new one
    have hskip {ks : List Nat} (hks : ∀ k ∈ ks, c.consumed ≠ k) :
        (ks.flatMap fun k => (c :: cs).filter (·.consumed = k)) =
          ks.flatMap fun k => cs.filter (·.consumed = k) :=
      List.flatMap_congr fun k hk => by simp [hks k hk]
    have hinsert : longestFirst (c :: cs) = c.insert (longestFirst cs) := rfl
    rw [hinsert, hrest, List.flatMap_append, List.flatMap_append, List.flatMap_cons,
      List.flatMap_cons, hskip fun k hk => (hlonger k hk).ne, hskip fun k hk => (hshorter k hk).ne',
      insert_append, insert_eq_cons]
    · simp
    · intro d hd
      rcases List.mem_append.1 hd with hd | hd
      · exact (of_decide_eq_true (List.mem_filter.1 hd).2).le
      · obtain ⟨k, hk, hd⟩ := List.mem_flatMap.1 hd
        exact (of_decide_eq_true (List.mem_filter.1 hd).2).trans_le (hshorter k hk).le
    · intro d hd
      obtain ⟨k, hk, hd⟩ := List.mem_flatMap.1 hd
      exact (hlonger k hk).trans_eq (of_decide_eq_true (List.mem_filter.1 hd).2).symm

end Candidate

/-- Sorting things by a number leaves none out and adds none. -/
theorem flatMap_filter_perm {α : Type} {f : α → Nat} {l : List Nat} {xs : List α} (hl : l.Nodup)
    (h : ∀ x ∈ xs, f x ∈ l) : (l.flatMap fun k => xs.filter (f · = k)).Perm xs := by
  induction xs with
  | nil => simp
  | cons x xs ih =>
    have hone : (l.flatMap fun k => [x].filter (f · = k)) = [x] := by
      obtain ⟨before, after, rfl⟩ := List.append_of_mem (h x List.mem_cons_self)
      have hnil {ks : List Nat} (hks : f x ∉ ks) :
          (ks.flatMap fun k => [x].filter (f · = k)) = [] :=
        List.flatMap_eq_nil_iff.2 fun k hk => by
          have : f x ≠ k := fun e => hks (e ▸ hk)
          simp [this]
      obtain ⟨-, hafter, hbefore⟩ := List.nodup_append'.1 hl
      rw [List.flatMap_append, List.flatMap_cons, hnil fun hx => hbefore hx List.mem_cons_self,
        hnil (List.nodup_cons.1 hafter).1]
      simp
    have hsplit : (l.flatMap fun k => (x :: xs).filter (f · = k)) =
        l.flatMap fun k => [x].filter (f · = k) ++ xs.filter (f · = k) :=
      List.flatMap_congr fun k _ => by rw [← List.filter_append, List.singleton_append]
    rw [hsplit]
    refine (List.flatMap_append_perm l _ _).symm.trans ?_
    rw [hone]
    exact (ih fun y hy => h y (List.mem_cons_of_mem _ hy)).cons x

/-! ## Numbers of arguments -/

/-- The numbers of arguments from `n` down to `p`. -/
def lengths (p n : Nat) : List Nat := (List.range' p (n + 1 - p)).reverse

section Lengths

variable {p n k : Nat}

theorem mem_lengths : k ∈ lengths p n ↔ p ≤ k ∧ k ≤ n := by
  rw [lengths, List.mem_reverse, List.mem_range'_1]
  omega

theorem pairwise_lengths (p n : Nat) : (lengths p n).Pairwise (· > ·) :=
  List.pairwise_reverse.2 (List.pairwise_lt_range' ..)

theorem nodup_lengths (p n : Nat) : (lengths p n).Nodup :=
  (pairwise_lengths p n).imp fun h => Nat.ne_of_gt h

theorem lengths_succ (h : p ≤ n + 1) : lengths p (n + 1) = (n + 1) :: lengths p n := by
  have hlen : n + 1 + 1 - p = n + 1 - p + 1 := by omega
  have hlast : p + (n + 1 - p) = n + 1 := by omega
  rw [lengths, lengths, hlen, List.range'_1_concat, List.reverse_concat, hlast]

/-- The look-ups for each number of arguments are those that are made without parameters. -/
theorem take_countdown (h : p ≤ n) :
    (Batch.countdown n).take (n + 1 - p) = (lengths p n).map .exact := by
  induction n with
  | zero =>
    obtain rfl : p = 0 := by omega
    rfl
  | succ n ih =>
    have hlen : n + 1 + 1 - p = n + 1 - p + 1 := by omega
    rw [Batch.countdown, hlen, List.take_succ_cons, lengths_succ h, List.map_cons]
    by_cases hp : p ≤ n
    · rw [ih hp]
    · have hzero : n + 1 - p = 0 := by omega
      simp [hzero, lengths]

theorem mem_countdown {batch : Batch} (h : batch ∈ Batch.countdown n) :
    ∃ k ≤ n, batch = .exact k := by
  induction n with
  | zero => exact ⟨0, le_rfl, by simpa [Batch.countdown] using h⟩
  | succ n ih =>
    rcases List.mem_cons.1 h with rfl | h
    · exact ⟨n + 1, le_rfl, rfl⟩
    · obtain ⟨k, hk, rfl⟩ := ih h
      exact ⟨k, by omega, rfl⟩

/-- No look-up for a head is for more arguments than there are. -/
theorem mem_plan {params : Option Nat} {batch : Batch} (h : batch ∈ Batch.plan params n) :
    (∃ k ≤ n, batch = .exact k) ∨ ∃ p, batch = .parameters p n := by
  cases params with
  | none => exact .inl (mem_countdown h)
  | some p =>
    rw [Batch.plan] at h
    split at h
    · exact .inr ⟨p, by simpa using h⟩
    · exact .inl (mem_countdown h)

end Lengths

/-! ## Entries -/

/-- What a look-up goes through. -/
structure Entry where
  source : Source
  /-- The side that is looked at. -/
  side : Term
  /-- How many placeholders are set aside for a use. -/
  schematic : Nat

/-- The hypotheses in scope, seen through the bindings. -/
def State.entries (s : State) (side : Side) : List Entry :=
  s.hyps.zipIdx.map fun (h, i) => ⟨.hypothesis i, s.subst.walk (side.pick h.left h.right), 0⟩

/-- A registration with its number. -/
def Registration.entry (side : Side) (c : Registration × Nat) : Entry :=
  ⟨.fact c.2, c.1.side side, c.1.fact.schematic⟩

/-- Registrations with their numbers, those of facts about two terms first. -/
def Registration.numbered (calls : List Registration) : List (Registration × Nat) :=
  calls.zipIdx.filter (·.1.kind = .pair) ++ calls.zipIdx.filter (·.1.kind = .self)

/-- The facts, those about two terms before the terms related to themselves. -/
def Registration.entries (calls : List Registration) (side : Side) : List Entry :=
  (numbered calls).map (entry side)

namespace Entry

variable {head : String} {p n k : Nat} {es : List Entry}

/-- Where an entry comes from, and the number of arguments. -/
def key (e : Entry) : Source × Nat := (e.source, e.side.arity)

/-- The entries for a head with this many arguments. -/
def ofLength (head : String) (k : Nat) (es : List Entry) : List Entry :=
  es.filter (·.side.hasShape head k)

/-- The entries for a head that belong to a look-up. -/
def found (batch : Batch) (head : String) (es : List Entry) : List Entry :=
  es.filter fun e => e.side.hasHead head && batch.covers e.side.arity

theorem found_exact : found (.exact k) head es = ofLength head k es :=
  List.filter_congr fun e _ => by simp [Term.hasShape_eq, Batch.covers]

theorem filter_found_parameters (hp : p ≤ k) (hn : k ≤ n) :
    (found (.parameters p n) head es).filter (·.side.arity = k) = ofLength head k es := by
  rw [found, ofLength, List.filter_filter]
  refine List.filter_congr fun e _ => ?_
  by_cases harity : e.side.arity = k
  · simp [Term.hasShape_eq, Batch.covers, harity, hp, hn]
  · simp [Term.hasShape_eq, harity]

theorem arity_mem_lengths {e : Entry} (he : e ∈ found (.parameters p n) head es) :
    e.side.arity ∈ lengths p n := by
  have hcovers := (Bool.and_eq_true_iff.1 (List.mem_filter.1 he).2).2
  simpa [mem_lengths, Batch.covers] using hcovers

/-- What belongs to a look-up by parameters are the entries of each number of arguments. -/
theorem flatMap_ofLength_perm :
    ((lengths p n).flatMap fun k => ofLength head k es).Perm (found (.parameters p n) head es) := by
  have hlengths : ((lengths p n).flatMap fun k => ofLength head k es) =
      (lengths p n).flatMap fun k =>
        (found (.parameters p n) head es).filter (·.side.arity = k) :=
    List.flatMap_congr fun k hk => by
      obtain ⟨hp, hn⟩ := mem_lengths.1 hk
      rw [filter_found_parameters hp hn]
  rw [hlengths]
  exact flatMap_filter_perm (nodup_lengths p n) fun e he => arity_mem_lengths he

/-- To look among entries with the right shape only changes nothing. -/
theorem found_filter {batch : Batch} {test : Term → Bool}
    (h : ∀ t : Term, t.hasHead head = true → batch.covers t.arity = true → test t = true) :
    found batch head (es.filter (test ·.side)) = found batch head es := by
  rw [found, found, List.filter_filter]
  refine List.filter_congr fun e _ => ?_
  by_cases he : (e.side.hasHead head && batch.covers e.side.arity) = true
  · have hboth := Bool.and_eq_true_iff.1 he
    simp [he, h e.side hboth.1 hboth.2]
  · simp [he]

end Entry

/-- Candidates sorted by length are the entries of each length in turn. -/
theorem keys_longestFirst {p n : Nat} {head : String} {cs : List Candidate} {es : List Entry}
    (h : cs.map (·.key) = (Entry.found (.parameters p n) head es).map (·.key)) :
    (Candidate.longestFirst cs).map (·.key) =
      (lengths p n).flatMap fun k => (Entry.ofLength head k es).map (·.key) := by
  have hmem : ∀ c ∈ cs, c.consumed ∈ lengths p n := by
    intro c hc
    have hkey : c.key ∈ (Entry.found (.parameters p n) head es).map (·.key) :=
      h ▸ List.mem_map_of_mem hc
    obtain ⟨e, he, hkey⟩ := List.mem_map.1 hkey
    have harity : e.side.arity = c.consumed := congrArg Prod.snd hkey
    exact harity ▸ Entry.arity_mem_lengths he
  rw [Candidate.longestFirst_eq (pairwise_lengths p n) hmem, List.map_flatMap]
  refine List.flatMap_congr fun k hk => ?_
  obtain ⟨hp, hn⟩ := mem_lengths.1 hk
  calc (cs.filter (·.consumed = k)).map (·.key)
      = (cs.map (·.key)).filter (·.2 = k) := by rw [List.filter_map]; rfl
    _ = ((Entry.found (.parameters p n) head es).filter (·.side.arity = k)).map (·.key) := by
        rw [h, List.filter_map]; rfl
    _ = (Entry.ofLength head k es).map (·.key) := by rw [Entry.filter_found_parameters hp hn]

/-! ## Room for what is renamed -/

/-- Blocks of placeholders of these sizes can be set aside from an index on. -/
def Fits (first : Nat) (blocks : List Nat) : Prop := blocks = [] ∨ first + blocks.sum < indexBound

section Fits

variable {first : Nat} {xs ys : List Nat}

theorem fits_append : Fits first (xs ++ ys) ↔ Fits first xs ∧ Fits (first + xs.sum) ys := by
  cases xs with
  | nil => simp [Fits]
  | cons x xs =>
    cases ys with
    | nil => simp [Fits]
    | cons y ys =>
      simp only [Fits, List.cons_append, reduceCtorEq, false_or, List.sum_cons, List.sum_append]
      omega

theorem fits_congr (h : xs.Perm ys) : Fits first xs ↔ Fits first ys := by
  have hnil : xs = [] ↔ ys = [] := ⟨fun e => (e ▸ h).nil_eq.symm, fun e => (e ▸ h).eq_nil⟩
  rw [Fits, Fits, hnil, h.sum_nat]

end Fits

namespace Search

variable {α β γ : Type} {m : Search α} {s : State} {xs ys : List Nat} {Q : α → Prop}
  {R : β → Prop}

/-- The search sets blocks of these sizes aside and returns a value with a property, from the same
bindings and hypotheses on; without room for the blocks the indices run out. -/
structure Takes (m : Search α) (s : State) (blocks : List Nat) (Q : α → Prop) : Prop where
  returns : Fits s.ledger.nextVar blocks → ∃ a t, m.run s = .success a t ∧ Q a ∧
    t.subst = s.subst ∧ t.hyps = s.hyps ∧ t.ledger.nextVar = s.ledger.nextVar + blocks.sum
  overflows : ¬ Fits s.ledger.nextVar blocks → ∃ l, m.run s = .overflow l

namespace Takes

theorem pure {a : α} (h : Q a) : (Pure.pure a : Search α).Takes s [] Q where
  returns _ := ⟨a, s, rfl, h, rfl, rfl, by simp⟩
  overflows h := (h (.inl rfl)).elim

theorem bind {f : α → Search β} (h : m.Takes s xs Q)
    (hf : ∀ a t, t.subst = s.subst → t.hyps = s.hyps → Q a → (f a).Takes t ys R) :
    (m >>= f).Takes s (xs ++ ys) R where
  returns hfits := by
    obtain ⟨hxs, hys⟩ := fits_append.1 hfits
    obtain ⟨a, t, hrun, ha, hsubst, hhyps, hnext⟩ := h.returns hxs
    rw [← hnext] at hys
    obtain ⟨b, u, hrun', hb, hsubst', hhyps', hnext'⟩ := (hf a t hsubst hhyps ha).returns hys
    refine ⟨b, u, by simp only [run_bind, hrun, hrun'], hb, hsubst'.trans hsubst,
      hhyps'.trans hhyps, ?_⟩
    rw [hnext', hnext, List.sum_append, Nat.add_assoc]
  overflows hfits := by
    by_cases hxs : Fits s.ledger.nextVar xs
    · obtain ⟨a, t, hrun, ha, hsubst, hhyps, hnext⟩ := h.returns hxs
      have hys : ¬ Fits t.ledger.nextVar ys := fun hys => hfits (fits_append.2 ⟨hxs, hnext ▸ hys⟩)
      obtain ⟨l, hrun'⟩ := (hf a t hsubst hhyps ha).overflows hys
      exact ⟨l, by simp only [run_bind, hrun, hrun']⟩
    · obtain ⟨l, hrun⟩ := h.overflows hxs
      exact ⟨l, by simp only [run_bind, hrun]⟩

theorem bind_pure {f : α → β} (h : m.Takes s xs Q) (hf : ∀ a, Q a → R (f a)) :
    (m >>= fun a => Pure.pure (f a)).Takes s xs R := by
  rw [← List.append_nil xs]
  exact h.bind fun a t _ _ ha => .pure (hf a ha)

theorem mono {R : α → Prop} (h : m.Takes s xs Q) (hQ : ∀ a, Q a → R a) : m.Takes s xs R where
  returns hfits := by
    obtain ⟨a, t, hrun, ha, ht⟩ := h.returns hfits
    exact ⟨a, t, hrun, hQ a ha, ht⟩
  overflows := h.overflows

theorem of_perm (h : m.Takes s xs Q) (hperm : xs.Perm ys) : m.Takes s ys Q where
  returns hfits := by
    rw [← hperm.sum_nat]
    exact h.returns ((fits_congr hperm).2 hfits)
  overflows hfits := h.overflows fun h' => hfits ((fits_congr hperm).1 h')

theorem subst {f : Subst → Search β} (h : (f s.subst).Takes s xs R) :
    (Search.subst >>= f).Takes s xs R :=
  ⟨h.returns, h.overflows⟩

theorem hyps {f : List Hypothesis → Search β} (h : (f s.hyps).Takes s xs R) :
    (Search.hyps >>= f).Takes s xs R :=
  ⟨h.returns, h.overflows⟩

/-- One search after the other. -/
theorem mapM {f : β → Search α} {blocks : β → List Nat} {g : α → γ} {value : β → γ} {l : List β}
    (h : ∀ x ∈ l, ∀ t : State, t.subst = s.subst → t.hyps = s.hyps →
      (f x).Takes t (blocks x) fun a => g a = value x) :
    (l.mapM f).Takes s (l.flatMap blocks) fun as => as.map g = l.map value := by
  induction l generalizing s with
  | nil => exact .pure rfl
  | cons x l ih =>
    rw [List.mapM_cons, List.flatMap_cons]
    refine (h x List.mem_cons_self s rfl rfl).bind fun a t hsubst hhyps ha => ?_
    have hrest := ih fun y hy u hu hu' =>
      h y (List.mem_cons_of_mem _ hy) u (hu.trans hsubst) (hu'.trans hhyps)
    exact hrest.bind_pure fun as has => by simp [ha, has]

end Takes

theorem reserve_takes (n : Nat) : (reserve n).Takes s [n] fun _ => True where
  returns hfits := by
    have hlt : s.ledger.nextVar + n < indexBound := by simpa [Fits] using hfits
    exact ⟨_, _, if_pos hlt, trivial, rfl, rfl, by simp⟩
  overflows hfits := by
    have hge : ¬ s.ledger.nextVar + n < indexBound := by simpa [Fits] using hfits
    exact ⟨s.ledger, if_neg hge⟩

theorem count_takes (f : Stats → Stats) : (count f).Takes s [] fun _ => True where
  returns _ := ⟨_, _, rfl, trivial, rfl, rfl, by simp⟩
  overflows h := (h (.inl rfl)).elim

/-! ## Look-ups -/

variable {T : Theory} {side : Side} {head : String} {batch : Batch} {calls : List Registration}

theorem keys_hypothesisCandidates (s : State) :
    (hypothesisCandidates s.subst side head batch s.hyps).map (·.key) =
      (Entry.found batch head (s.entries side)).map (·.key) := by
  rw [hypothesisCandidates, Entry.found, State.entries]
  induction s.hyps.zipIdx with
  | nil => rfl
  | cons x l ih =>
    obtain ⟨h, i⟩ := x
    rw [List.filterMap_cons, List.map_cons, List.filter_cons]
    cases hwalk : s.subst.walk (side.pick h.left h.right) with
    | var j =>
      have hno : (Term.var j).hasHead head = false := rfl
      simpa [hwalk, hno] using ih
    | cases u arms =>
      have hno : (Term.cases u arms).hasHead head = false := rfl
      simpa [hwalk, hno] using ih
    | app f args =>
      by_cases hf : f = head ∧ batch.covers args.length = true
      · simpa [hwalk, hf, Candidate.key, Entry.key] using ih
      · simpa [hwalk, hf] using ih

/-- The facts that belong to a look-up, among registrations of facts with the head. -/
theorem factCandidates_takes {l : List (Registration × Nat)}
    (hfacts : ∀ c ∈ l, T.registry.facts[c.2]? = some c.1.fact)
    (hhead : ∀ c ∈ l, (c.1.side side).hasHead head = true) :
    (factCandidates T side batch (l.map Prod.snd)).Takes s
      ((Entry.found batch head (l.map (entry side))).map (·.schematic)) fun cs =>
        cs.map (·.key) = (Entry.found batch head (l.map (entry side))).map (·.key) := by
  induction l generalizing s with
  | nil => exact .pure rfl
  | cons x l ih =>
    obtain ⟨c, id⟩ := x
    have hrest {t : State} := ih (s := t) (fun y hy => hfacts y (List.mem_cons_of_mem _ hy))
      fun y hy => hhead y (List.mem_cons_of_mem _ hy)
    have hfact : T.registry.facts[id]? = some c.fact := hfacts _ List.mem_cons_self
    have hc : (c.side side).hasHead head = true := hhead _ List.mem_cons_self
    obtain ⟨args, hside⟩ := Term.hasHead_iff.1 hc
    have hside' : c.fact.side side = .app head args := hside
    simp only [List.map_cons, factCandidates, hfact, hside']
    have hadmits : ((entry side (c, id)).side.hasHead head &&
        batch.covers (entry side (c, id)).side.arity) = batch.covers args.length := by
      simp [entry, hside]
    by_cases hcovers : batch.covers args.length = true
    · rw [if_pos hcovers]
      simp only [Entry.found, List.filter_cons, hadmits, hcovers, if_true, List.map_cons]
      refine (reserve_takes c.fact.schematic).bind fun offset t _ _ _ => ?_
      refine hrest.bind_pure fun cs hcs => ?_
      rw [List.map_cons, hcs]
      simp [Candidate.key, Entry.key, Entry.found, entry, hside]
    · rw [if_neg hcovers]
      simpa [Entry.found, List.filter_cons, hadmits, hcovers] using hrest

/-- What is looked up are the registrations that pass the test of the index, the facts about two
terms first. -/
theorem scan_eq_map_numbered (calls : List Registration) (side : Side) (test : Term → Bool) :
    scan calls .pair side test ++ scan calls .self side test =
      ((numbered calls).filter fun c => test (c.1.side side)).map Prod.snd := by
  simp only [scan, numbered, List.filter_append, List.filter_filter, List.map_append, Bool.and_comm]

theorem getElem?_of_mem_numbered (hT : T.registry.Records calls) {c : Registration × Nat}
    (hc : c ∈ numbered calls) : T.registry.facts[c.2]? = some c.1.fact := by
  have hmem : c ∈ calls.zipIdx := by
    rcases List.mem_append.1 hc with hc | hc
    · exact (List.mem_filter.1 hc).1
    · exact (List.mem_filter.1 hc).1
  rw [hT.getElem?_facts, List.mem_zipIdx_iff_getElem?.1 hmem, Option.map_some]

/-- An index may list any facts with the head if it lists all that belong to the look-up. -/
theorem lookup_takes (hT : T.registry.Records calls) (s : State) (side : Side) (batch : Batch)
    (test : Term → Bool) (hhead : ∀ t, test t = true → t.hasHead head = true)
    (hall : ∀ t : Term, t.hasHead head = true → batch.covers t.arity = true → test t = true) :
    (factCandidates T side batch (scan calls .pair side test ++ scan calls .self side test)).Takes s
      ((Entry.found batch head (entries calls side)).map (·.schematic)) fun cs =>
        cs.map (·.key) = (Entry.found batch head (entries calls side)).map (·.key) := by
  have hfound : Entry.found batch head (entries calls side) = Entry.found batch head
      (((numbered calls).filter fun c => test (c.1.side side)).map (entry side)) := by
    rw [← Entry.found_filter hall, entries, List.filter_map]
    rfl
  rw [scan_eq_map_numbered, hfound]
  refine factCandidates_takes (fun c hc => ?_) fun c hc => hhead _ (List.mem_filter.1 hc).2
  exact getElem?_of_mem_numbered hT (List.mem_filter.1 hc).1

/-- One look-up, before its candidates are put in order. -/
theorem probe_takes (hT : T.registry.Records calls) (s : State) :
    (probe T side head batch).Takes s
      ((Entry.found batch head (entries calls side)).map (·.schematic)) fun cs =>
        ∃ assumed facts, cs = batch.arrange assumed ++ batch.arrange facts ∧
          assumed.map (·.key) = (Entry.found batch head (s.entries side)).map (·.key) ∧
          facts.map (·.key) = (Entry.found batch head (entries calls side)).map (·.key) := by
  refine (count_takes fun n => { n with probes := n.probes + 1 }).bind fun _ t hsubst hhyps _ => ?_
  have hassumed : (hypothesisCandidates t.subst side head batch t.hyps).map (·.key) =
      (Entry.found batch head (s.entries side)).map (·.key) := by
    rw [hsubst, hhyps]
    exact keys_hypothesisCandidates s
  refine .subst (.hyps ?_)
  cases batch with
  | exact k =>
    have hfacts := lookup_takes hT t side (.exact k) (Term.hasShape head k)
      (fun u hu => (Bool.and_eq_true_iff.1 (u.hasShape_eq head k ▸ hu)).1)
      fun u hhead hk => u.hasShape_eq head k ▸ Bool.and_eq_true_iff.2 ⟨hhead, hk⟩
    rw [← hT.byShape_eq] at hfacts
    exact hfacts.bind_pure fun facts hkeys => ⟨_, facts, rfl, hassumed, hkeys⟩
  | parameters p n =>
    have hfacts := lookup_takes hT t side (.parameters p n) (Term.hasHead head) (fun _ hu => hu)
      fun _ hhead _ => hhead
    rw [← hT.byHead_eq] at hfacts
    exact hfacts.bind_pure fun facts hkeys => ⟨_, facts, rfl, hassumed, hkeys⟩

theorem exact_takes (hT : T.registry.Records calls) (s : State) (side : Side) (head : String)
    (k : Nat) :
    (probe T side head (.exact k)).Takes s
      ((Entry.ofLength head k (entries calls side)).map (·.schematic)) fun cs =>
        cs.map (·.key) = (Entry.ofLength head k (s.entries side)).map (·.key) ++
          (Entry.ofLength head k (entries calls side)).map (·.key) := by
  rw [← Entry.found_exact, ← Entry.found_exact]
  refine (probe_takes hT s).mono ?_
  rintro cs ⟨assumed, facts, rfl, hassumed, hfacts⟩
  rw [List.map_append, ← hassumed, ← hfacts]
  rfl

theorem parameters_takes (hT : T.registry.Records calls) (s : State) (side : Side) (head : String)
    (p n : Nat) :
    (probe T side head (.parameters p n)).Takes s
      ((lengths p n).flatMap fun k =>
        (Entry.ofLength head k (entries calls side)).map (·.schematic)) fun cs =>
        cs.map (·.key) =
          ((lengths p n).flatMap fun k => (Entry.ofLength head k (s.entries side)).map (·.key)) ++
            (lengths p n).flatMap fun k =>
              (Entry.ofLength head k (entries calls side)).map (·.key) := by
  refine ((probe_takes hT s).of_perm ?_).mono ?_
  · rw [← List.map_flatMap]
    exact Entry.flatMap_ofLength_perm.symm.map _
  · rintro cs ⟨assumed, facts, rfl, hassumed, hfacts⟩
    rw [List.map_append]
    exact congrArg₂ _ (keys_longestFirst hassumed) (keys_longestFirst hfacts)

/-- The numbers of arguments that the candidates of a look-up may cover. -/
theorem consumed_of_mem {found : List Candidate} {t : State} {c : Candidate}
    (h : (probe T side head batch).run s = .success found t) (hc : c ∈ found) :
    batch.covers c.consumed = true := by
  have hgets : (probe T side head batch).Gets s _ := probe_gets
  exact ((Ends.of_success hgets h).2.2 c hc).covers

end Search

/-- For a head with `n` arguments, `probe` by `p` parameters finds exactly what the look-ups for `n`,
`n - 1` down to `p` arguments find. It lists all hypotheses before all facts, and each of them by
decreasing number of arguments. Those with the same number stand in the order in which the
hypotheses were made, or the facts about two terms and then the self-related terms registered. Both
ways come to an end, unless there is no room to rename what is found, and then neither does. What a
look-up finds covers as many arguments as it is for, so never more than there are. -/
theorem parameters_find_all {T : Theory} {calls : List Registration}
    (hT : T.registry.Records calls) (side : Side) (head : String) {p n : Nat} (hpn : p ≤ n)
    (s : State) :
    let assumed (k : Nat) := (Entry.ofLength head k (s.entries side)).map Entry.key
    let registered (k : Nat) := (Entry.ofLength head k (entries calls side)).map Entry.key
    let blocks := (lengths p n).flatMap fun k =>
      (Entry.ofLength head k (entries calls side)).map Entry.schematic
    let atOnce := (probe T side head (.parameters p n)).run s
    let inTurn := (((Batch.plan none n).take (n + 1 - p)).mapM (probe T side head)).run s
    (Fits s.ledger.nextVar blocks → ∃ found t batches u,
      atOnce = .success found t ∧ inTurn = .success batches u ∧
      found.map Candidate.key = (lengths p n).flatMap assumed ++ (lengths p n).flatMap registered ∧
      batches.map (·.map Candidate.key) = (lengths p n).map (fun k => assumed k ++ registered k) ∧
      (found.map Candidate.key).Perm (batches.flatten.map Candidate.key)) ∧
    (¬ Fits s.ledger.nextVar blocks →
      (∃ l, atOnce = .overflow l) ∧ ∃ l, inTurn = .overflow l) ∧
    ∀ params, ∀ batch ∈ Batch.plan params n, ∀ found t,
      (probe T side head batch).run s = .success found t → ∀ c ∈ found, c.consumed ≤ n ∧
        match batch with
        | .exact k => c.consumed = k
        | .parameters p n => p ≤ c.consumed ∧ c.consumed ≤ n := by
  intro assumed registered blocks atOnce inTurn
  have honce := parameters_takes hT s side head p n
  have hturn : (((Batch.plan none n).take (n + 1 - p)).mapM (probe T side head)).Takes s blocks
      fun batches => batches.map (·.map Candidate.key) =
        (lengths p n).map fun k => assumed k ++ registered k := by
    rw [Batch.plan, take_countdown hpn, List.mapM_map]
    refine .mapM fun k _ t hsubst hhyps => ?_
    have hentries : t.entries side = s.entries side := by rw [State.entries, hsubst, hhyps]; rfl
    have hexact := exact_takes hT t side head k
    rw [hentries] at hexact
    exact hexact
  refine ⟨fun hfits => ?_, fun hfits => ⟨honce.overflows hfits, hturn.overflows hfits⟩, ?_⟩
  · obtain ⟨found, t, hrun, hfound, -⟩ := honce.returns hfits
    obtain ⟨batches, u, hrun', hbatches, -⟩ := hturn.returns hfits
    refine ⟨found, t, batches, u, hrun, hrun', hfound, hbatches, ?_⟩
    rw [List.map_flatten, hbatches, hfound]
    exact List.flatMap_append_perm ..
  · intro params batch hbatch found t hrun c hc
    have hcovers := consumed_of_mem hrun hc
    rcases mem_plan hbatch with ⟨k, hk, rfl⟩ | ⟨p, rfl⟩
    · have hlength : c.consumed = k := by simpa [Batch.covers] using hcovers
      exact ⟨hlength.trans_le hk, hlength⟩
    · have hbounds : p ≤ c.consumed ∧ c.consumed ≤ n := by simpa [Batch.covers] using hcovers
      exact ⟨hbounds.2, hbounds⟩

/-- Hypotheses, one of them seen through a binding, and facts of both kinds. Those in which the head
has no argument are left out. -/
theorem parameters_find_mixed :
    let a := Term.const "a"
    let f (args : List Term) := Term.app "f" args
    let calls : List Registration :=
      [.self a (f [a, .var 0]) a, .pair a (f [a]) a a, .pair a (f []) a a, .pair a (f [a, a]) a a]
    let s : State :=
      { subst := Subst.empty.bind 0 (f [a, a])
        hyps := [⟨a, f [a], a, a⟩, ⟨a, f [], a, a⟩, ⟨a, .var 0, a, a⟩]
        ledger := { nextVar := 1, symbols := {} } }
    ∃ T : Theory, T.registry.Records calls ∧ ∃ found t,
      (probe T .left "f" (.parameters 1 2)).run s = .success found t ∧
      found.map Candidate.key =
        [(.hypothesis 2, 2), (.hypothesis 0, 1), (.fact 3, 2), (.fact 0, 2), (.fact 1, 1)] := by
  intro a f calls s
  have start : Registry.Records [] {} := .start rfl rfl rfl
  have h := (((start.addTo calls[0] (by decide)).addTo calls[1] (by decide)).addTo calls[2]
    (by decide)).addTo calls[3] (by decide)
  refine ⟨{ registry := _ }, h, ?_⟩
  obtain ⟨hfits, -⟩ := parameters_find_all (T := { registry := _ }) h .left "f" (p := 1) (n := 2)
    (by decide) s
  obtain ⟨found, t, -, -, hrun, -, hfound, -⟩ := hfits (.inr (by decide +kernel))
  exact ⟨found, t, hrun, hfound.trans (by decide +kernel)⟩

end Monotonicity
