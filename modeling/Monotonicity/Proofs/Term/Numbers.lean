import Monotonicity.Proofs.Substitution.Acyclic
import Monotonicity.Proofs.Term.Interning

/-!
# What is done with numbers is done with terms

`maxVar`, `write`, `rename` and `resolve` go from a number to those of its children. What they come
to is what the functions of these names on terms come to for the term that the number stands for.
The short cuts on the way (a constant is not renamed, an application whose arguments stay as they are
is not looked up) do not show, because equal terms have equal numbers.

`maxVar` and `write` leave the store as it is, and come to an end for every number that stands for a
term. `rename` and `resolve` add nodes. If they run out of numbers on the way, nodes that they still
have to read are overwritten, so that anything may follow. They come to an end where there are numbers
for all nodes of the result (`rename_ends`, `resolve_ends`), the latter unless bindings run in a
circle.
-/

namespace Monotonicity

/-! ## Sizes of terms -/

namespace Term

mutual
/-- How many nodes a term has. -/
def size : Term → Nat
  | .var _ => 1
  | .app _ args => 1 + sizeAll args
  | .cases s arms => 1 + (s.size + sizeArms arms)

def sizeAll : List Term → Nat
  | [] => 0
  | t :: ts => t.size + sizeAll ts

def sizeArms : List (Arm Term) → Nat
  | [] => 0
  | ⟨_, _, t⟩ :: arms => t.size + sizeArms arms
end

theorem size_eq (t : Term) : t.size = 1 + (t.children.map size).sum := by
  have hall (ts : List Term) : sizeAll ts = (ts.map size).sum := by
    induction ts with
    | nil => rfl
    | cons t ts ih => simp [sizeAll, ih]
  have harms (arms : List (Arm Term)) : sizeArms arms = ((arms.map (·.body)).map size).sum := by
    induction arms with
    | nil => rfl
    | cons arm arms ih =>
      cases arm
      simp [sizeArms, ih]
  cases t with
  | var i => rfl
  | app head args => simp [size, children, hall]
  | cases s arms => simp [size, children, harms]

theorem size_lt_of_mem_children {t u : Term} (h : u ∈ t.children) : u.size < t.size := by
  have hle := List.le_sum_of_mem (List.mem_map_of_mem (f := size) h)
  have hsum := t.size_eq
  omega

theorem bound_eq_boundAll_children {t : Term} (ht : ∀ i, t ≠ .var i) :
    t.bound = boundAll t.children := by
  have harms (arms : List (Arm Term)) : boundArms arms = boundAll (arms.map (·.body)) := by
    induction arms with
    | nil => rfl
    | cons arm arms ih =>
      cases arm
      simp [boundArms, boundAll, ih]
  cases t with
  | var i => exact (ht i rfl).elim
  | app head args => rfl
  | cases s arms => simp [bound, children, boundAll, harms]

end Term

namespace Store

variable {s s' : Store} {n : Node} {t u : Term} {id c : UInt32} {ids : List UInt32}
  {ts us : List Term} {m : Nat}

/-- Numbers stand for terms, one by one. -/
def Reads (s : Store) (ids : List UInt32) (ts : List Term) : Prop :=
  List.Forall₂ (fun c u => s.term? c = some u) ids ts

theorem Reads.mono (h : s.Reads ids ts) (hle : s ≤ s') : s'.Reads ids ts :=
  h.imp fun _ _ => term?_mono hle

theorem Reads.unique (h : s.Reads ids ts) (h' : s.Reads ids us) : ts = us :=
  Option.some.inj ((mapM_eq_some_iff.2 h).symm.trans (mapM_eq_some_iff.2 h'))

/-! ## The largest placeholder -/

/-- The index below a bound, if there is one. -/
def below : Nat → Option Nat
  | 0 => none
  | n + 1 => some n

theorem below_max (k i : Nat) : some ((below k).elim i (max i)) = below (max k (i + 1)) := by
  cases k with
  | zero => simp [below]
  | succ k => simp [below, Nat.add_max_add_right, max_comm]

theorem maxVarFor_eq (h : s.termFor m id = some t) (k : Nat) :
    s.maxVarFor m id (below k) = some (below (max k t.bound)) := by
  induction m generalizing id t k with
  | zero => cases h
  | succ m ih =>
    obtain ⟨n, hn, hshows⟩ := termFor_succ_eq_some_iff.1 h
    have hall {ids : List UInt32} {ts : List Term}
        (hts : List.Forall₂ (fun c u => s.termFor m c = some u) ids ts) :
        ids.foldrM (s.maxVarFor m) (below k) = some (below (max k (Term.boundAll ts))) := by
      induction hts with
      | nil => simp [Term.boundAll]
      | cons ht _ ihs =>
        rw [List.foldrM_cons, ihs, Option.bind_eq_bind, Option.bind_some, ih ht, Term.boundAll,
          max_comm (Term.bound _), max_assoc]
    cases hshows with
    | var i => simp only [maxVarFor, hn, below_max, Term.bound]
    | app head hargs =>
      simp only [maxVarFor, hn, Term.bound]
      exact hall hargs
    | @cases _ scrutinee _ arms hs harms =>
      simp only [maxVarFor, hn]
      rw [Term.bound_eq_boundAll_children (by simp)]
      exact hall (Node.Shows.cases hs harms).children

theorem maxVar_eq (h : s.term? id = some t) : s.maxVar id = some t.maxVar? := by
  rw [maxVar, Term.maxVar?, Term.maxVarAll?, Term.boundAll, Term.boundAll, max_comm]
  exact maxVarFor_eq h 0

/-! ## The text -/

section Text

variable {R : UInt32 → Term → Prop} {write : String → UInt32 → Option String}

theorem writeAll_eq (h : List.Forall₂ R ids ts)
    (hwrite : ∀ c u, R c u → ∀ out, write out c = some (u.write out)) (out : String) :
    writeAll write out ids = some (Term.writeAll out ts) := by
  induction h generalizing out with
  | nil => rfl
  | cons ht _ ih =>
    rw [writeAll, hwrite _ _ ht, Term.writeAll]
    exact ih _

theorem writeArms_eq {ids : List (Arm UInt32)} {arms : List (Arm Term)}
    (h : List.Forall₂ (Arm.Alike R) ids arms)
    (hwrite : ∀ c u, R c u → ∀ out, write out c = some (u.write out)) (out : String) :
    writeArms write out ids = some (Term.writeArms out arms) := by
  induction h generalizing out with
  | nil => rfl
  | @cons arm arm' _ _ ha _ ih =>
    obtain ⟨ctor, arity, c⟩ := arm
    obtain ⟨ctor', arity', u⟩ := arm'
    obtain ⟨rfl, rfl, hc⟩ := ha
    rw [writeArms, hwrite _ _ hc, Term.writeArms]
    exact ih _

end Text

theorem writeFor_eq (h : s.termFor m id = some t) (out : String) :
    s.writeFor m out id = some (t.write out) := by
  induction m generalizing id t out with
  | zero => cases h
  | succ m ih =>
    obtain ⟨n, hn, hshows⟩ := termFor_succ_eq_some_iff.1 h
    rw [writeFor, hn]
    cases hshows with
    | var i => rfl
    | app head hargs =>
      have hall := writeAll_eq hargs (fun _ _ => ih) (out ++ "(" ++ head)
      cases hargs with
      | nil => rfl
      | cons ht hts =>
        simp only [Option.bind_eq_bind, Option.bind_some, hall]
        rfl
    | @cases _ scrutinee _ _ hs harms =>
      have hall := writeArms_eq harms (fun _ _ => ih) (scrutinee.write (out ++ "(match "))
      simp only [Option.bind_eq_bind, Option.bind_some, ih hs, hall]
      rfl

theorem write_eq (h : s.term? id = some t) (out : String) : s.write out id = some (t.write out) :=
  writeFor_eq h out

/-! ## Answers -/

/-- What an operation on the number of a term comes to. There are no fewer nodes than before, and
unless the numbers ran out the answer stands for a term that is related to the given one. Of the store
`P` is assumed. -/
structure Answers (P : Store → Prop) (F : Term → Term → Prop) (s : Store) (id : UInt32)
    (r : UInt32 × Store) : Prop where
  count_le : s.count ≤ r.2.count
  given : s.WellFormed → P s → r.2.count ≤ UInt32.size → ∀ t, s.term? id = some t →
    ∃ u, F t u ∧ s.Given r u

structure AnswersAll (P : Store → Prop) (F : Term → Term → Prop) (s : Store) (ids : List UInt32)
    (r : List UInt32 × Store) : Prop where
  count_le : s.count ≤ r.2.count
  given : s.WellFormed → P s → r.2.count ≤ UInt32.size → ∀ ts, s.Reads ids ts →
    ∃ us, List.Forall₂ F ts us ∧ r.2.WellFormed ∧ s ≤ r.2 ∧ r.2.Reads r.1 us

/-- What is assumed of a store holds as well when nodes were added. -/
def Lasting (P : Store → Prop) : Prop := ∀ {s s'}, s ≤ s' → P s → P s'

section Answers

variable {P : Store → Prop} {F G : Term → Term → Prop} {r : UInt32 × Store}
  {rs : List UInt32 × Store} {head : String} {arms : List (Arm UInt32)}

theorem Answers.same (hF : P s → ∀ t, s.term? id = some t → F t t) : Answers P F s id (id, s) :=
  ⟨le_rfl, fun hs hP _ t ht => ⟨t, hF hP t ht, hs, le_refl s, ht⟩⟩

theorem AnswersAll.nil : AnswersAll P F s [] ([], s) := by
  refine ⟨le_rfl, fun hs _ _ ts hts => ?_⟩
  cases hts
  exact ⟨[], .nil, hs, le_refl s, .nil⟩

theorem AnswersAll.cons (hP : Lasting P) (h : Answers P F s id r)
    (hrest : AnswersAll P F r.2 ids rs) : AnswersAll P F s (id :: ids) (r.1 :: rs.1, rs.2) := by
  refine ⟨h.count_le.trans hrest.count_le, fun hs hPs hroom ts hts => ?_⟩
  obtain _ | ⟨ht, hts⟩ := hts
  obtain ⟨u, hu, hgiven⟩ := h.given hs hPs (hrest.count_le.trans hroom) _ ht
  obtain ⟨us, hus, hs', hle, hreads⟩ :=
    hrest.given hgiven.wellFormed (hP hgiven.le hPs) hroom _ (Reads.mono hts hgiven.le)
  exact ⟨u :: us, .cons hu hus, hs', hgiven.le.trans hle, .cons (term?_mono hle hgiven.term) hreads⟩

theorem each_answers {run : UInt32 → Store → Option (UInt32 × Store)} (hP : Lasting P)
    (hrun : ∀ {id s r}, run id s = some r → Answers P F s id r) (h : each run ids s = some rs) :
    AnswersAll P F s ids rs := by
  induction ids generalizing s rs with
  | nil =>
    cases h
    exact .nil
  | cons id ids ih =>
    obtain ⟨r, hr, h⟩ := Option.bind_eq_some_iff.1 h
    obtain ⟨rs, hrs, ⟨⟩⟩ := Option.bind_eq_some_iff.1 h
    exact .cons hP (hrun hr) (ih hrs)

theorem Answers.app (h : AnswersAll P G s ids rs) (hn : s.node? id = some (.app head ids))
    (hF : ∀ ts us, List.Forall₂ G ts us → F (.app head ts) (.app head us)) :
    Answers P F s id (rs.2.intern (.app head rs.1)) := by
  refine ⟨h.count_le.trans (count_le_intern _ _), fun hs hP hroom t ht => ?_⟩
  cases shows_of_term? ht hn with
  | app _ hargs =>
    obtain ⟨us, hus, hs', hle, hreads⟩ :=
      h.given hs hP ((count_le_intern _ _).trans hroom) _ hargs
    exact ⟨_, hF _ _ hus, (hs'.given_intern (.app head hreads) hroom).of_le hle⟩

/-- An application whose arguments came out as they were is the one that was asked for. -/
theorem Answers.kept (h : AnswersAll P G s ids rs) (hsame : rs.1 = ids)
    (hn : s.node? id = some (.app head ids))
    (hF : ∀ ts us, List.Forall₂ G ts us → F (.app head ts) (.app head us)) :
    Answers P F s id (id, rs.2) := by
  refine ⟨h.count_le, fun hs hP hroom t ht => ?_⟩
  cases shows_of_term? ht hn with
  | @app _ _ ts hargs =>
    obtain ⟨us, hus, hs', hle, hreads⟩ := h.given hs hP hroom _ hargs
    obtain rfl : ts = us := (Reads.mono hargs hle).unique (hsame ▸ hreads)
    exact ⟨_, hF _ _ hus, hs', hle, term?_mono hle ht⟩

theorem alike_withBodies {α β γ δ : Type} {R : α → γ → Prop} {S : β → δ → Prop}
    {as : List (Arm α)} {cs : List (Arm γ)} {bs : List β} {ds : List δ}
    (h : List.Forall₂ (Arm.Alike R) as cs) (hbodies : List.Forall₂ S bs ds)
    (hlength : bs.length = as.length) :
    List.Forall₂ (Arm.Alike S) (Arm.withBodies as bs) (Arm.withBodies cs ds) := by
  induction h generalizing bs ds with
  | nil =>
    cases hbodies
    · exact .nil
    · simp at hlength
  | cons ha _ ih =>
    cases hbodies with
    | nil => simp at hlength
    | cons hb hbs => exact .cons ⟨ha.ctor, ha.arity, hb⟩ (ih hbs (by simpa using hlength))

theorem alike_withBodies_right {as : List (Arm Term)} (h : List.Forall₂ G (as.map (·.body)) us) :
    List.Forall₂ (Arm.Alike G) as (Arm.withBodies as us) := by
  induction as generalizing us with
  | nil => exact .nil
  | cons a as ih =>
    cases h with
    | cons hu hus => exact .cons ⟨rfl, rfl, hu⟩ (ih hus)

theorem Answers.cases (hP : Lasting P) (h : Answers P G s c r)
    (hbodies : AnswersAll P G r.2 (arms.map (·.body)) rs) (hn : s.node? id = some (.cases c arms))
    (hF : ∀ t u as bs, G t u → List.Forall₂ (Arm.Alike G) as bs → F (.cases t as) (.cases u bs)) :
    Answers P F s id (rs.2.intern (.cases r.1 (Arm.withBodies arms rs.1))) := by
  have hcount := hbodies.count_le.trans (count_le_intern _ (.cases r.1 (Arm.withBodies arms rs.1)))
  refine ⟨h.count_le.trans hcount, fun hs hPs hroom t ht => ?_⟩
  cases shows_of_term? ht hn with
  | @cases _ scrutinee _ as hscrutinee harms =>
    obtain ⟨u, hu, hgiven⟩ := h.given hs hPs (hcount.trans hroom) _ hscrutinee
    have hreads : s.Reads (arms.map (·.body)) (as.map (·.body)) :=
      List.forall₂_map_left_iff.2 (List.forall₂_map_right_iff.2 (harms.imp fun _ _ h => h.body))
    obtain ⟨us, hus, hs', hle, hreads'⟩ := hbodies.given hgiven.wellFormed (hP hgiven.le hPs)
      ((count_le_intern _ _).trans hroom) _ (hreads.mono hgiven.le)
    have hlength : rs.1.length = arms.length := by
      rw [hreads'.length_eq, ← hus.length_eq, List.length_map, harms.length_eq]
    have hshows := Node.Shows.cases (term?_mono hle hgiven.term)
      (alike_withBodies harms hreads' hlength)
    exact ⟨_, hF _ _ _ _ hu (alike_withBodies_right hus),
      (hs'.given_intern hshows hroom).of_le (hgiven.le.trans hle)⟩

end Answers

/-! ## Renaming -/

theorem eq_map_of_forall₂ {α β : Type} {f : α → β} {xs : List α} {ys : List β}
    (h : List.Forall₂ (fun x y => y = f x) xs ys) : ys = xs.map f := by
  induction h with
  | nil => rfl
  | cons hxy _ ih => rw [hxy, ih, List.map_cons]

theorem eq_map_of_alike {f : Term → Term} {as bs : List (Arm Term)}
    (h : List.Forall₂ (Arm.Alike fun t u => u = f t) as bs) :
    bs = as.map fun a => { a with body := f a.body } := by
  refine eq_map_of_forall₂ (h.imp fun a b hab => ?_)
  obtain ⟨ctor, arity, body⟩ := b
  obtain ⟨rfl, rfl, rfl⟩ := hab
  rfl

variable {offset : Nat}

/-- Where a renaming ends, it answers with the renamed term. -/
theorem renameFor_answers {r : UInt32 × Store} (h : renameFor offset m id s = some r) :
    Answers (fun _ => True) (fun t u => u = t.rename offset) s id r := by
  have hlasting : Lasting fun _ => True := fun _ _ => trivial
  induction m generalizing id s r with
  | zero => cases h
  | succ m ih =>
    rw [renameFor] at h
    split at h
    · next hzero =>
      cases h
      exact .same fun _ t _ => by simp [Term.rename, hzero]
    split at h
    · next i hn =>
      split at h
      · cases h
        refine ⟨count_le_intern _ _, fun hs _ hroom t ht => ?_⟩
        cases shows_of_term? ht hn
        exact ⟨_, by simp [Term.rename_eq_subst], hs.given_intern (.var _) hroom⟩
      · cases h
    · next head ids hn =>
      split at h
      · next hempty =>
        cases h
        refine .same fun _ t ht => ?_
        cases shows_of_term? ht hn with
        | app _ hargs =>
          obtain rfl := List.isEmpty_iff.1 hempty
          cases hargs
          simp [Term.rename_eq_subst]
      · obtain ⟨rs, hrs, ⟨⟩⟩ := Option.bind_eq_some_iff.1 h
        refine .app (each_answers hlasting ih hrs) hn fun ts us hus => ?_
        simp [eq_map_of_forall₂ hus, Term.rename_eq_subst]
    · next c arms hn =>
      obtain ⟨r', hr', h⟩ := Option.bind_eq_some_iff.1 h
      obtain ⟨rs, hrs, ⟨⟩⟩ := Option.bind_eq_some_iff.1 h
      refine .cases hlasting (ih hr') (each_answers hlasting ih hrs) hn fun t u as bs hu hbs => ?_
      simp [hu, eq_map_of_alike hbs, Term.rename_eq_subst]
    · next hn =>
      cases h
      refine .same fun _ t ht => ?_
      obtain ⟨n, hn', -⟩ := exists_node?_of_term? ht
      cases hn.symm.trans hn'

/-! ## Following bindings -/

/-- Bindings of placeholders to numbers, the latest first, stand for those of a substitution. -/
def Stands (s : Store) (bindings : List (Nat × UInt32)) (σ : Subst) : Prop :=
  List.Forall₂ (fun b c => b.1 = c.1 ∧ s.term? b.2 = some c.2) bindings σ.trail

section Stands

variable {bindings : List (Nat × UInt32)} {σ : Subst} {i : Nat} {id' : UInt32}

theorem stands_lasting : Lasting fun s => s.Stands bindings σ :=
  fun hle h => h.imp fun _ _ hb => ⟨hb.1, term?_mono hle hb.2⟩

theorem Stands.lookup (h : s.Stands bindings σ) (i : Nat) :
    Option.Rel (fun c t => s.term? c = some t) (bindings.lookup i) (σ.get? i) := by
  rw [Stands] at h
  rw [Subst.get?_eq_lookup]
  generalize σ.trail = trail at h
  induction h with
  | nil => exact .none
  | @cons b c _ _ hb _ ih =>
    obtain ⟨j, id⟩ := b
    obtain ⟨j', t⟩ := c
    obtain ⟨rfl, ht⟩ := hb
    rw [List.lookup_cons, List.lookup_cons]
    cases i == j with
    | true => exact .some ht
    | false => exact ih

theorem Stands.get?_of_lookup_none (h : s.Stands bindings σ) (hi : bindings.lookup i = none) :
    σ.get? i = none := by
  have hrel := hi ▸ h.lookup i
  generalize σ.get? i = o at hrel
  cases hrel
  rfl

theorem Stands.get?_of_lookup_some (h : s.Stands bindings σ) (hi : bindings.lookup i = some c) :
    ∃ t, σ.get? i = some t ∧ s.term? c = some t := by
  have hrel := hi ▸ h.lookup i
  generalize σ.get? i = o at hrel
  cases hrel with
  | some ht => exact ⟨_, rfl, ht⟩

/-- Where a walk ends, it does so at a term with the same value, and not at a bound placeholder. -/
theorem walkFor_stops (σ : Subst) (h : s.walkFor bindings m id = some id') :
    (∀ i, s.node? id' = some (.var i) → bindings.lookup i = none) ∧
    ∀ t, s.Stands bindings σ → s.term? id = some t →
      ∃ u, s.term? id' = some u ∧ (σ.Acyclic → σ.resolve u = σ.resolve t) := by
  induction m generalizing id with
  | zero => cases h
  | succ m ih =>
    rw [walkFor] at h
    split at h
    · next i hn =>
      split at h
      · next c hi =>
        obtain ⟨hstops, hvalue⟩ := ih h
        refine ⟨hstops, fun t hσ ht => ?_⟩
        cases shows_of_term? ht hn
        obtain ⟨v, hv, hc⟩ := hσ.get?_of_lookup_some hi
        obtain ⟨u, hu, hsame⟩ := hvalue v hσ hc
        exact ⟨u, hu, fun hacyclic => (hsame hacyclic).trans (hacyclic.value_of_bound hv).symm⟩
      · next hi =>
        cases h
        refine ⟨fun j hj => ?_, fun t _ ht => ⟨t, ht, fun _ => rfl⟩⟩
        cases hn.symm.trans hj
        exact hi
    · next hno =>
      cases h
      exact ⟨fun i hi => (hno i hi).elim, fun t _ ht => ⟨t, ht, fun _ => rfl⟩⟩

theorem walkFor_ends (hacyclic : σ.Acyclic) (hσ : s.Stands bindings σ) {rest : Subst}
    (henough : σ.Enough rest t) (ht : s.term? id = some t) :
    ∃ id', s.walkFor bindings (rest.size + 1) id = some id' := by
  induction rest generalizing id t with
  | empty =>
    rw [walkFor]
    split
    · next i hn =>
      cases shows_of_term? ht hn
      split
      · next c hi =>
        obtain ⟨v, hv, -⟩ := hσ.get?_of_lookup_some hi
        rw [henough.unbound hacyclic (by simp)] at hv
        cases hv
      · exact ⟨id, rfl⟩
    · exact ⟨id, rfl⟩
  | bind rest j u ih =>
    rw [Subst.size_bind, walkFor]
    split
    · next i hn =>
      cases shows_of_term? ht hn
      split
      · next c hi =>
        obtain ⟨v, hv, hc⟩ := hσ.get?_of_lookup_some hi
        exact ih (henough.follow hacyclic (by simp) hv) hc
      · exact ⟨id, rfl⟩
    · exact ⟨id, rfl⟩

theorem walk_ends (hacyclic : σ.Acyclic) (hσ : s.Stands bindings σ) (ht : s.term? id = some t) :
    ∃ id', s.walk bindings id = some id' := by
  have hlength : bindings.length = σ.size := by rw [Subst.size_eq_length_trail, hσ.length_eq]
  rw [walk, hlength]
  exact walkFor_ends hacyclic hσ (Subst.enough_self σ t) ht

/-! ## Resolving -/

/-- The value of a term. Where bindings run in a circle, this may be any term. -/
def IsValue (σ : Subst) (t u : Term) : Prop := σ.Acyclic → u = σ.resolve t

theorem IsValue.app (head : String) (h : List.Forall₂ (IsValue σ) ts us) :
    IsValue σ (.app head ts) (.app head us) := by
  intro hacyclic
  rw [eq_map_of_forall₂ (h.imp fun _ _ h => h hacyclic)]
  simp [hacyclic.resolve_eq_subst]

theorem IsValue.cases {as bs : List (Arm Term)} (h : IsValue σ t u)
    (harms : List.Forall₂ (Arm.Alike (IsValue σ)) as bs) :
    IsValue σ (.cases t as) (.cases u bs) := by
  intro hacyclic
  have halike : List.Forall₂ (Arm.Alike fun t u => u = σ.resolve t) as bs :=
    harms.imp fun a b h => ⟨h.ctor, h.arity, h.body hacyclic⟩
  rw [h hacyclic, eq_map_of_alike halike]
  simp [hacyclic.resolve_eq_subst]

/-- Where bindings are followed to the end, the answer is the value of the given term. -/
theorem resolveFor_answers {r : UInt32 × Store} (h : resolveFor bindings m id s = some r) :
    Answers (fun s => s.Stands bindings σ) (IsValue σ) s id r := by
  induction m generalizing id s r with
  | zero => cases h
  | succ m ih =>
    rw [resolveFor] at h
    split at h
    · next hempty =>
      cases h
      refine .same fun hσ t _ _ => ?_
      obtain rfl := List.isEmpty_iff.1 hempty
      cases σ with
      | empty => rfl
      | bind σ i u => cases hσ
    obtain ⟨id', hwalk, h⟩ := Option.bind_eq_some_iff.1 h
    obtain ⟨hstops, hvalue⟩ := walkFor_stops σ hwalk
    suffices hanswers : Answers (fun s => s.Stands bindings σ) (IsValue σ) s id' r by
      refine ⟨hanswers.count_le, fun hs hσ hroom t ht => ?_⟩
      obtain ⟨t', ht', hsame⟩ := hvalue t hσ ht
      obtain ⟨u, hu, hgiven⟩ := hanswers.given hs hσ hroom t' ht'
      exact ⟨u, fun hacyclic => (hu hacyclic).trans (hsame hacyclic), hgiven⟩
    split at h
    · next head ids hn =>
      split at h
      · next hempty =>
        cases h
        refine .same fun _ t ht => ?_
        cases shows_of_term? ht hn with
        | app _ hargs =>
          obtain rfl := List.isEmpty_iff.1 hempty
          cases hargs
          exact IsValue.app head .nil
      · obtain ⟨⟨ids', s'⟩, hrs, h⟩ := Option.bind_eq_some_iff.1 h
        have hall := each_answers stands_lasting ih hrs
        dsimp only at h
        split at h
        · next hsame =>
          cases h
          exact .kept hall hsame hn fun _ _ => IsValue.app head
        · cases h
          exact .app hall hn fun _ _ => IsValue.app head
    · next c arms hn =>
      obtain ⟨r', hr', h⟩ := Option.bind_eq_some_iff.1 h
      obtain ⟨rs, hrs, ⟨⟩⟩ := Option.bind_eq_some_iff.1 h
      exact .cases stands_lasting (ih hr') (each_answers stands_lasting ih hrs) hn
        fun _ _ _ _ => IsValue.cases
    · next hnapp hncases =>
      cases h
      refine .same fun hσ t ht _ => ?_
      obtain ⟨n, hn, hshows⟩ := exists_node?_of_term? ht
      cases hshows with
      | var i => exact (Subst.value_of_unbound (hσ.get?_of_lookup_none (hstops i hn))).symm
      | app head hargs => exact (hnapp _ _ hn).elim
      | cases hs harms => exact (hncases _ _ hn).elim

end Stands

/-! ## Coming to an end -/

/-- For a number of the term the operation comes to an end wherever so many numbers are left, and it
takes no more than these. -/
def Ends (P : Store → Prop) (run : UInt32 → Store → Option (UInt32 × Store)) (t : Term)
    (cost : Nat) : Prop :=
  ∀ id s, s.WellFormed → P s → s.term? id = some t → s.count + cost ≤ UInt32.size →
    ∃ r, run id s = some r ∧ r.2.count ≤ s.count + cost

section Ends

variable {P : Store → Prop} {F : Term → Term → Prop}
  {run : UInt32 → Store → Option (UInt32 × Store)} {cost : Term → Nat}

theorem each_ends (hP : Lasting P) (hrun : ∀ {id s r}, run id s = some r → Answers P F s id r)
    (h : s.Reads ids ts) (hends : ∀ t ∈ ts, Ends P run t (cost t)) (hs : s.WellFormed) (hPs : P s)
    (hroom : s.count + (ts.map cost).sum ≤ UInt32.size) :
    ∃ r, each run ids s = some r ∧ r.2.count ≤ s.count + (ts.map cost).sum := by
  induction ids generalizing s ts with
  | nil =>
    cases h
    exact ⟨([], s), rfl, by simp⟩
  | cons id ids ih =>
    obtain _ | @⟨_, t, _, ts, ht, hts⟩ := h
    rw [List.map_cons, List.sum_cons] at hroom ⊢
    obtain ⟨r, hr, hcount⟩ := hends t List.mem_cons_self id s hs hPs ht (by omega)
    obtain ⟨u, -, hgiven⟩ := (hrun hr).given hs hPs (by omega) t ht
    have hends' : ∀ t ∈ ts, Ends P run t (cost t) := fun t ht => hends t (List.mem_cons_of_mem _ ht)
    obtain ⟨rs, hrs, hcount'⟩ := ih (Reads.mono hts hgiven.le) hends' hgiven.wellFormed
      (hP hgiven.le hPs) (by omega)
    exact ⟨(r.1 :: rs.1, rs.2), by simp [each, hr, hrs], by dsimp only; omega⟩

theorem of_each_cons {rs : List UInt32 × Store} (h : each run (id :: ids) s = some rs) :
    ∃ r, run id s = some r ∧ ∃ rs', each run ids r.2 = some rs' ∧ rs'.2 = rs.2 := by
  obtain ⟨r, hr, h⟩ := Option.bind_eq_some_iff.1 h
  obtain ⟨rs', hrs', ⟨⟩⟩ := Option.bind_eq_some_iff.1 h
  exact ⟨r, hr, rs', hrs', rfl⟩

end Ends

theorem renameFor_ends (hsize : t.size ≤ m) (hbound : ∀ i ∈ t.vars, i + offset < indexBound) :
    Ends (fun _ => True) (renameFor offset m) t t.size := by
  induction m generalizing t with
  | zero =>
    have hpos := t.size_eq
    omega
  | succ m ih =>
    intro id s hs _ ht hroom
    obtain ⟨n, hn, hshows⟩ := exists_node?_of_term? ht
    -- the children come first, and then one number is enough for the root
    have hchildren (hvar : ∀ i, t ≠ .var i) : ∃ rs, each (renameFor offset m) n.children s = some rs ∧
        rs.2.count + 1 ≤ s.count + t.size := by
      have hends : ∀ u ∈ t.children, Ends (fun _ => True) (renameFor offset m) u u.size :=
        fun u hu => ih (Nat.le_of_lt_succ ((Term.size_lt_of_mem_children hu).trans_le hsize))
          fun i hi => hbound i ((Term.mem_vars_iff_children hvar).2 ⟨u, hu, hi⟩)
      have hsum := t.size_eq
      obtain ⟨rs, hrs, hcount⟩ := each_ends (fun _ _ => trivial) renameFor_answers
        hshows.children hends hs trivial (by omega)
      exact ⟨rs, hrs, by omega⟩
    rw [renameFor]
    split
    · exact ⟨_, rfl, by simp⟩
    cases hshows with
    | var i =>
      simp only [hn, if_pos (hbound i (by simp))]
      exact ⟨_, rfl, count_intern_le s _⟩
    | app head hargs =>
      obtain ⟨rs, hrs, hcount⟩ := hchildren (by simp)
      simp only [hn]
      split
      · exact ⟨_, rfl, by simp⟩
      · refine ⟨_, ?_, (count_intern_le rs.2 (.app head rs.1)).trans hcount⟩
        simp only [Node.children] at hrs
        rw [hrs]
        rfl
    | cases hscrutinee harms =>
      obtain ⟨rs, hrs, hcount⟩ := hchildren (by simp)
      obtain ⟨r, hr, rs', hrs', hsame⟩ := of_each_cons hrs
      rw [← hsame] at hcount
      simp only [hn, hr, Option.bind_eq_bind, Option.bind_some, hrs']
      exact ⟨_, rfl, (count_intern_le rs'.2 _).trans hcount⟩

/-- A renaming comes to an end, if no index passes the largest and there are numbers for all nodes of
the renamed term. -/
theorem rename_ends (hbound : ∀ i ∈ t.vars, i + offset < indexBound) :
    Ends (fun _ => True) (rename offset) t t.size :=
  fun id s hs hP ht hroom => renameFor_ends (by omega) hbound id s hs hP ht hroom

theorem resolveFor_ends {bindings : List (Nat × UInt32)} {σ : Subst} (hacyclic : σ.Acyclic)
    (hsize : (σ.resolve t).size ≤ m) :
    Ends (fun s => s.Stands bindings σ) (resolveFor bindings m) t (σ.resolve t).size := by
  induction m generalizing t with
  | zero =>
    have hpos := (σ.resolve t).size_eq
    omega
  | succ m ih =>
    intro id s hs hσ ht hroom
    rw [resolveFor]
    split
    · exact ⟨_, rfl, by simp⟩
    obtain ⟨id', hwalk⟩ := walk_ends hacyclic hσ ht
    obtain ⟨-, hvalue⟩ := walkFor_stops σ hwalk
    obtain ⟨t', ht', hsame⟩ := hvalue t hσ ht
    obtain ⟨n, hn, hshows⟩ := exists_node?_of_term? ht'
    rw [← hsame hacyclic] at hsize hroom ⊢
    have hchildren (hvar : ∀ i, t' ≠ .var i) : ∃ rs,
        each (resolveFor bindings m) n.children s = some rs ∧
          rs.2.count + 1 ≤ s.count + (σ.resolve t').size := by
      have hbelow : (σ.resolve t').children = t'.children.map σ.resolve := by
        rw [hacyclic.resolve_eq_subst, Term.children_subst hvar]
        exact List.map_congr_left fun v _ => (hacyclic.resolve_eq_subst v).symm
      have hends : ∀ v ∈ t'.children, Ends (fun s => s.Stands bindings σ) (resolveFor bindings m) v
          (σ.resolve v).size := by
        intro v hv
        have hmem : σ.resolve v ∈ (σ.resolve t').children := hbelow ▸ List.mem_map_of_mem hv
        exact ih (Nat.le_of_lt_succ ((Term.size_lt_of_mem_children hmem).trans_le hsize))
      have hsum := (σ.resolve t').size_eq
      rw [hbelow, List.map_map, Function.comp_def] at hsum
      obtain ⟨rs, hrs, hcount⟩ := each_ends stands_lasting resolveFor_answers
        hshows.children hends hs hσ (by omega)
      exact ⟨rs, hrs, by omega⟩
    simp only [hwalk, Option.bind_eq_bind, Option.bind_some]
    cases hshows with
    | var i =>
      simp only [hn]
      exact ⟨_, rfl, by simp⟩
    | app head hargs =>
      obtain ⟨rs, hrs, hcount⟩ := hchildren (by simp)
      simp only [hn]
      split
      · exact ⟨_, rfl, by simp⟩
      · simp only [Node.children] at hrs
        rw [hrs, Option.bind_some]
        split
        · exact ⟨_, rfl, (Nat.le_succ _).trans hcount⟩
        · exact ⟨_, rfl, (count_intern_le rs.2 _).trans hcount⟩
    | cases hscrutinee harms =>
      obtain ⟨rs, hrs, hcount⟩ := hchildren (by simp)
      obtain ⟨r, hr, rs', hrs', hsame'⟩ := of_each_cons hrs
      rw [← hsame'] at hcount
      simp only [hn, hr, Option.bind_some, hrs']
      exact ⟨_, rfl, (count_intern_le rs'.2 _).trans hcount⟩

/-- Bindings that do not run in a circle are followed to the end, if there are numbers for all nodes of
the value. -/
theorem resolve_ends {bindings : List (Nat × UInt32)} {σ : Subst} (hacyclic : σ.Acyclic) (t : Term) :
    Ends (fun s => s.Stands bindings σ) (resolve bindings) t (σ.resolve t).size :=
  fun id s hs hσ ht hroom => resolveFor_ends hacyclic (by omega) id s hs hσ ht hroom

end Store

end Monotonicity
