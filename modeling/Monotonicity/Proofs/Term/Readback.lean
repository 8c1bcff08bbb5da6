import Mathlib.Data.List.Forall2
import Mathlib.Logic.Hydra
import Monotonicity.Proofs.Term.Placeholders
import Monotonicity.Term.Store

/-!
# Reading terms back

A number in a store stands for the term that is read back from its node, the nodes of its children
and so on, as far down as there are numbers (`Store.term?`). It stays the same when nodes are added
and none is overwritten (`term?_mono`). Where nodes come after those of their children, every number
in use stands for a term.

For the same reason whatever goes from numbers to those of their children comes to an end, however
it orders its work (`Ordered.wellFounded_round`).
-/

namespace Monotonicity

/-! ## Lists side by side -/

section Lists

variable {α β : Type} {R S : α → β → Prop} {xs xs' : List α} {ys : List β}

theorem forall₂_imp_of_mem (h : List.Forall₂ R xs ys) (himp : ∀ y ∈ ys, ∀ x, R x y → S x y) :
    List.Forall₂ S xs ys :=
  List.forall₂_iff_zip.2 ⟨h.length_eq, fun hxy =>
    himp _ (List.of_mem_zip hxy).2 _ ((List.forall₂_iff_zip.1 h).2 hxy)⟩

theorem eq_of_forall₂_of_mem (h : List.Forall₂ R xs ys) (h' : List.Forall₂ S xs' ys)
    (hinj : ∀ y ∈ ys, ∀ x x', R x y → S x' y → x = x') : xs = xs' := by
  induction h generalizing xs' with
  | nil =>
    cases h'
    rfl
  | cons hxy hrest ih =>
    obtain _ | ⟨hxy', hrest'⟩ := h'
    rw [hinj _ List.mem_cons_self _ _ hxy hxy',
      ih hrest' fun y hy => hinj y (List.mem_cons_of_mem _ hy)]

theorem exists_forall₂_of_mem (h : ∀ x ∈ xs, ∃ y, R x y) : ∃ ys, List.Forall₂ R xs ys := by
  induction xs with
  | nil => exact ⟨[], .nil⟩
  | cons x xs ih =>
    obtain ⟨y, hy⟩ := h x List.mem_cons_self
    obtain ⟨ys, hys⟩ := ih fun x hx => h x (List.mem_cons_of_mem _ hx)
    exact ⟨y :: ys, .cons hy hys⟩

theorem exists_of_forall₂_of_mem (h : List.Forall₂ R xs ys) {x : α} (hx : x ∈ xs) :
    ∃ y, R x y := by
  induction h with
  | nil => simp at hx
  | cons hxy hrest ih =>
    rcases List.mem_cons.1 hx with rfl | hx
    · exact ⟨_, hxy⟩
    · exact ih hx

theorem mapM_eq_some_iff {f : α → Option β} :
    xs.mapM f = some ys ↔ List.Forall₂ (fun x y => f x = some y) xs ys := by
  induction xs generalizing ys with
  | nil => simp [eq_comm]
  | cons x xs ih =>
    cases ys with
    | nil => simp [List.mapM_cons, Option.bind_eq_some_iff]
    | cons y ys => simp [List.mapM_cons, Option.bind_eq_some_iff, ih]

end Lists

/-! ## Nodes -/

/-- An arm with its body looked up. -/
def Arm.lookUp? {α β : Type} (look : α → Option β) (arm : Arm α) : Option (Arm β) :=
  (look arm.body).map fun body => ⟨arm.ctor, arm.arity, body⟩

/-- Whether two arms have the same constructor and arity, and bodies that correspond. -/
structure Arm.Alike {α β : Type} (R : α → β → Prop) (arm : Arm α) (arm' : Arm β) : Prop where
  ctor : arm.ctor = arm'.ctor
  arity : arm.arity = arm'.arity
  body : R arm.body arm'.body

theorem Arm.lookUp?_eq_some_iff {α β : Type} {look : α → Option β} {arm : Arm α} {arm' : Arm β} :
    arm.lookUp? look = some arm' ↔ arm.Alike (fun a b => look a = some b) arm' := by
  obtain ⟨ctor, arity, body⟩ := arm'
  simp only [lookUp?, Option.map_eq_some_iff, Arm.mk.injEq]
  constructor
  · rintro ⟨b, hb, hctor, harity, rfl⟩
    exact ⟨hctor, harity, hb⟩
  · rintro ⟨hctor, harity, hb⟩
    exact ⟨body, hb, hctor, harity, rfl⟩

namespace Node

variable {R S : UInt32 → Term → Prop} {n m : Node} {t : Term}

theorem body_mem_children {id : UInt32} {arms : List (Arm UInt32)} {arm : Arm UInt32}
    (h : arm ∈ arms) : arm.body ∈ (Node.cases id arms).children :=
  List.mem_cons_of_mem _ (List.mem_map_of_mem h)

/-- The term with this root, if the children can be looked up. -/
def term? (look : UInt32 → Option Term) : Node → Option Term
  | .var i => some (.var i)
  | .app head ids => return .app head (← ids.mapM look)
  | .cases id arms => return .cases (← look id) (← arms.mapM (Arm.lookUp? look))

/-- A node is the root of a term whose children correspond to the numbers. -/
inductive Shows (R : UInt32 → Term → Prop) : Node → Term → Prop
  | var (i : Nat) : Shows R (.var i) (.var i)
  | app (head : String) {ids : List UInt32} {ts : List Term} (hargs : List.Forall₂ R ids ts) :
    Shows R (.app head ids) (.app head ts)
  | cases {id : UInt32} {s : Term} {ids : List (Arm UInt32)} {arms : List (Arm Term)}
    (hs : R id s) (harms : List.Forall₂ (Arm.Alike R) ids arms) :
    Shows R (.cases id ids) (.cases s arms)

theorem term?_eq_some_iff {look : UInt32 → Option Term} :
    n.term? look = some t ↔ n.Shows (fun c u => look c = some u) t := by
  constructor
  · intro h
    cases n with
    | var i =>
      cases h
      exact .var i
    | app head ids =>
      obtain ⟨ts, hts, ⟨⟩⟩ := Option.bind_eq_some_iff.1 h
      exact .app head (mapM_eq_some_iff.1 hts)
    | cases id ids =>
      obtain ⟨s, hs, h⟩ := Option.bind_eq_some_iff.1 h
      obtain ⟨arms, harms, ⟨⟩⟩ := Option.bind_eq_some_iff.1 h
      exact .cases hs ((mapM_eq_some_iff.1 harms).imp fun _ _ => Arm.lookUp?_eq_some_iff.1)
  · intro h
    cases h with
    | var i => rfl
    | app head hargs => simp [term?, mapM_eq_some_iff.2 hargs]
    | cases hs harms =>
      have hlook := mapM_eq_some_iff.2 (harms.imp fun _ _ => Arm.lookUp?_eq_some_iff.2)
      simp [term?, hs, hlook]

theorem Shows.imp (h : n.Shows R t) (himp : ∀ u ∈ t.children, ∀ c, R c u → S c u) :
    n.Shows S t := by
  cases h with
  | var i => exact .var i
  | app head hargs => exact .app head (forall₂_imp_of_mem hargs himp)
  | cases hs harms =>
    refine .cases (himp _ List.mem_cons_self _ hs) (forall₂_imp_of_mem harms ?_)
    rintro arm harm arm' ⟨hctor, harity, hbody⟩
    exact ⟨hctor, harity, himp _ (Term.body_mem_children harm) _ hbody⟩

/-- A term has one root, if each child has one number. -/
theorem Shows.inj (h : n.Shows R t) (h' : m.Shows S t)
    (hinj : ∀ u ∈ t.children, ∀ c c', R c u → S c' u → c = c') : n = m := by
  cases h with
  | var i =>
    cases h'
    rfl
  | app head hargs =>
    obtain _ | ⟨_, hargs'⟩ := h'
    rw [eq_of_forall₂_of_mem hargs hargs' hinj]
  | cases hs harms =>
    obtain _ | _ | ⟨hs', harms'⟩ := h'
    rw [hinj _ List.mem_cons_self _ _ hs hs']
    rw [eq_of_forall₂_of_mem harms harms']
    rintro arm harm ⟨c, k, id⟩ ⟨c', k', id'⟩ ⟨hctor, harity, hbody⟩ ⟨hctor', harity', hbody'⟩
    obtain rfl : id = id' := hinj _ (Term.body_mem_children harm) _ _ hbody hbody'
    obtain rfl : c = c' := hctor.trans hctor'.symm
    obtain rfl : k = k' := harity.trans harity'.symm
    rfl

theorem Shows.children (h : n.Shows R t) : List.Forall₂ R n.children t.children := by
  cases h with
  | var i => exact .nil
  | app head hargs => exact hargs
  | cases hs harms =>
    refine .cons hs (List.forall₂_map_left_iff.2 (List.forall₂_map_right_iff.2 ?_))
    exact harms.imp fun _ _ h => h.body

theorem exists_shows (h : ∀ c ∈ n.children, ∃ u, R c u) : ∃ t, n.Shows R t := by
  cases n with
  | var i => exact ⟨_, .var i⟩
  | app head ids =>
    obtain ⟨ts, hts⟩ := exists_forall₂_of_mem h
    exact ⟨_, .app head hts⟩
  | cases id ids =>
    obtain ⟨s, hs⟩ := h id List.mem_cons_self
    have harm : ∀ arm ∈ ids, ∃ arm', Arm.Alike R arm arm' := by
      intro arm harm
      obtain ⟨u, hu⟩ := h arm.body (body_mem_children harm)
      exact ⟨⟨arm.ctor, arm.arity, u⟩, rfl, rfl, hu⟩
    obtain ⟨arms, harms⟩ := exists_forall₂_of_mem harm
    exact ⟨_, .cases hs harms⟩

end Node

/-! ## Reading back -/

namespace Store

variable {s s' : Store} {n : Node} {t : Term} {id : UInt32} {m m' : Nat}

/-- The term under a number, if it is not deeper than `m`. -/
def termFor (s : Store) : Nat → UInt32 → Option Term
  | 0, _ => none
  | m + 1, id => s.node? id >>= Node.term? (termFor s m)

/-- The term that a number stands for. -/
def term? (s : Store) (id : UInt32) : Option Term := s.termFor UInt32.size id

theorem termFor_succ_eq_some_iff :
    s.termFor (m + 1) id = some t ↔
      ∃ n, s.node? id = some n ∧ n.Shows (fun c u => s.termFor m c = some u) t := by
  simp only [termFor, Option.bind_eq_bind, Option.bind_eq_some_iff, Node.term?_eq_some_iff]

/-- A store is below those that have its nodes under the same numbers. -/
instance : Preorder Store where
  le s s' := ∀ (id : UInt32) (n : Node), s.node? id = some n → s'.node? id = some n
  le_refl _ _ _ hn := hn
  le_trans _ _ _ h h' id n hn := h' id n (h id n hn)

theorem termFor_mono (hle : s ≤ s') (hm : m ≤ m') (h : s.termFor m id = some t) :
    s'.termFor m' id = some t := by
  induction m generalizing m' id t with
  | zero => cases h
  | succ m ih =>
    cases m' with
    | zero => omega
    | succ m' =>
      obtain ⟨n, hn, hshows⟩ := termFor_succ_eq_some_iff.1 h
      refine termFor_succ_eq_some_iff.2 ⟨n, hle id n hn, hshows.imp fun u _ c hc => ?_⟩
      exact ih (Nat.le_of_succ_le_succ hm) hc

theorem term?_of_termFor (hm : m ≤ UInt32.size) (h : s.termFor m id = some t) :
    s.term? id = some t :=
  termFor_mono (le_refl s) hm h

theorem term?_var {i : Nat} (h : s.node? id = some (.var i)) : s.term? id = some (.var i) :=
  termFor_succ_eq_some_iff.2 ⟨_, h, .var i⟩

/-- Two nodes are enough to tell, whether or not others run in a circle. -/
theorem term?_app_var {head : String} {c : UInt32} {i : Nat} (h : s.node? id = some (.app head [c]))
    (hc : s.node? c = some (.var i)) : s.term? id = some (.app head [.var i]) := by
  have harg : s.termFor 1 c = some (.var i) := termFor_succ_eq_some_iff.2 ⟨_, hc, .var i⟩
  have hterm : s.termFor 2 id = some (.app head [.var i]) :=
    termFor_succ_eq_some_iff.2 ⟨_, h, .app head (.cons harg .nil)⟩
  exact term?_of_termFor (by decide) hterm

/-- What a number stands for is kept by what is added. -/
theorem term?_mono (hle : s ≤ s') (h : s.term? id = some t) : s'.term? id = some t :=
  termFor_mono hle le_rfl h

theorem shows_of_term? (h : s.term? id = some t) (hn : s.node? id = some n) :
    n.Shows (fun c u => s.term? c = some u) t := by
  obtain ⟨n', hn', hshows⟩ := termFor_succ_eq_some_iff.1 h
  obtain rfl : n = n' := Option.some.inj (hn.symm.trans hn')
  exact hshows.imp fun _ _ _ => term?_of_termFor (by decide)

theorem exists_node?_of_term? (h : s.term? id = some t) :
    ∃ n, s.node? id = some n ∧ n.Shows (fun c u => s.term? c = some u) t := by
  obtain ⟨n, hn, -⟩ := termFor_succ_eq_some_iff.1 h
  exact ⟨n, hn, shows_of_term? h hn⟩

theorem lt_size_of_node? (h : s.node? id = some n) : id.toNat < s.nodes.size :=
  (Array.getElem?_eq_some_iff.1 h).1

theorem lt_size_of_term? (h : s.term? id = some t) : id.toNat < s.nodes.size := by
  obtain ⟨n, hn, -⟩ := exists_node?_of_term? h
  exact lt_size_of_node? hn

/-- Nodes come after those of their children. -/
def Ordered (s : Store) : Prop :=
  ∀ (id : UInt32) (n : Node), s.node? id = some n → ∀ c ∈ n.children, c < id

theorem Ordered.exists_term? (hs : s.Ordered) (h : id.toNat < s.nodes.size) :
    ∃ t, s.term? id = some t := by
  -- the terms under the numbers up to `m` are not deeper than that
  suffices hfor : ∀ m id, id.toNat < m → id.toNat < s.nodes.size → ∃ t, s.termFor m id = some t by
    obtain ⟨t, ht⟩ := hfor (id.toNat + 1) id (Nat.lt_succ_self _) h
    exact ⟨t, term?_of_termFor id.toNat_lt ht⟩
  intro m
  induction m with
  | zero => intro id hid; omega
  | succ m ih =>
    intro id hid h
    have hn : s.node? id = some s.nodes[id.toNat] := Array.getElem?_eq_getElem h
    have hchildren : ∀ c ∈ s.nodes[id.toNat].children, ∃ u, s.termFor m c = some u := by
      intro c hc
      have hlt := UInt32.lt_iff_toNat_lt.1 (hs id _ hn c hc)
      exact ih c (by omega) (by omega)
    obtain ⟨t, ht⟩ := Node.exists_shows hchildren
    exact ⟨t, termFor_succ_eq_some_iff.2 ⟨_, hn, ht⟩⟩

/-- The number of a node stands for the term that it is the root of. -/
theorem Ordered.term?_of_shows (hs : s.Ordered) (hn : s.node? id = some n)
    (h : n.Shows (fun c u => s.term? c = some u) t) : s.term? id = some t := by
  obtain ⟨u, hu⟩ := hs.exists_term? (lt_size_of_node? hn)
  have hsame := (Node.term?_eq_some_iff.2 (shows_of_term? hu hn)).symm.trans
    (Node.term?_eq_some_iff.2 h)
  exact Option.some.inj hsame ▸ hu

/-! ## Traversals -/

/-- The children of a number. -/
def children (s : Store) (id : UInt32) : List UInt32 := ((s.node? id).map Node.children).getD []

/-- One round of a traversal: one of the numbers that are still to be looked at gives way to its
children. -/
def Round (s : Store) (later now : Multiset UInt32) : Prop :=
  ∃ id rest, now = id ::ₘ rest ∧ later = ↑(s.children id) + rest

theorem Ordered.wellFounded_round (hs : s.Ordered) : WellFounded s.Round := by
  have hlt : WellFounded fun a b : UInt32 => a.toNat < b.toNat := InvImage.wf _ Nat.lt_wfRel.wf
  refine Subrelation.wf ?_ hlt.cutExpand
  rintro later now ⟨id, rest, rfl, rfl⟩
  refine ⟨↑(s.children id), id, fun c hc => ?_, ?_⟩
  · cases hn : s.node? id with
    | none => simp [children, hn] at hc
    | some n => exact UInt32.lt_iff_toNat_lt.1 (hs id n hn c (by simpa [children, hn] using hc))
  · rw [← Multiset.singleton_add id rest]
    ac_rfl

end Store

end Monotonicity
