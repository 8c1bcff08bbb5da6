import Monotonicity.Proofs.Term.Readback

/-!
# Nodes are kept once each

As long as there are no more nodes than numbers, every node is listed under its number and no other,
and comes after its children (`Store.WellFormed`). Then no two numbers stand for the same term
(`WellFormed.number_unique`). Interning a node keeps this, unless the numbers run out, so putting a
term in keeps it as well (`enters`).

The nodes that were added are counted by `Store.count`, which never gets smaller: if there are numbers
enough at the end, there were at every moment before.
-/

namespace Monotonicity

namespace Store

variable {s s' : Store} {n : Node} {t : Term} {id : UInt32}

/-! ## Counting nodes -/

theorem count_le_intern (s : Store) (n : Node) : s.count ≤ (s.intern n).2.count := by
  rw [intern]
  split
  · exact le_rfl
  · exact Std.HashMap.size_le_size_insert

theorem count_intern_le (s : Store) (n : Node) : (s.intern n).2.count ≤ s.count + 1 := by
  rw [intern]
  split
  · exact Nat.le_succ _
  · exact Std.HashMap.size_insert_le

mutual
theorem count_le_put (t : Term) (s : Store) : s.count ≤ (put t s).2.count := by
  unfold put
  split
  · exact le_rfl
  · cases t with
    | var i => exact count_le_intern s _
    | app head args => exact (count_le_putAll args s).trans (count_le_intern _ _)
    | cases scrutinee arms =>
      refine (count_le_put scrutinee s).trans ?_
      exact (count_le_putArms arms _).trans (count_le_intern _ _)

theorem count_le_putAll (ts : List Term) (s : Store) : s.count ≤ (putAll ts s).2.count := by
  cases ts with
  | nil => exact le_rfl
  | cons t ts => exact (count_le_put t s).trans (count_le_putAll ts _)

theorem count_le_putArms (arms : List (Arm Term)) (s : Store) :
    s.count ≤ (putArms arms s).2.count := by
  cases arms with
  | nil => exact le_rfl
  | cons arm arms => exact (count_le_put arm.body s).trans (count_le_putArms arms _)
end

/-! ## The invariant -/

/-- Nodes are listed under their numbers, come after their children and have not run out of numbers,
and the terms that were put in are what their numbers stand for. -/
structure WellFormed (s : Store) : Prop where
  ordered : s.Ordered
  ids : ∀ {n : Node} {id : UInt32}, s.ids[n]? = some id ↔ s.node? id = some n
  size : s.nodes.size = s.count
  next : s.next = .ofNat s.count
  count_le : s.count ≤ UInt32.size
  known : ∀ {t : Term} {id : UInt32}, s.known[t]? = some id → s.term? id = some t

theorem wellFormed_empty : WellFormed {} where
  ordered id n h := by simp [node?] at h
  ids := by simp [node?]
  size := by simp [count]
  next := by simp [count]
  count_le := by simp [count]
  known h := by simp at h

theorem node?_add (hnext : s.next.toNat ≤ s.nodes.size) (id : UInt32) :
    (s.add n).2.node? id = if id = s.next then some n else s.node? id := by
  simp only [node?, add]
  by_cases hid : id = s.next
  · subst hid
    rw [if_pos rfl, Array.getElem?_setIfInBounds_self_of_lt]
    simp
    omega
  · have hne : id.toNat ≠ s.next.toNat := fun h => hid (UInt32.toNat_inj.1 h)
    rw [if_neg hid, Array.getElem?_setIfInBounds_ne hne.symm, Array.getElem?_append]
    split
    · rfl
    · next hle =>
      rw [Array.getElem?_eq_none (Nat.le_of_not_lt hle), Array.getElem?_eq_none]
      simp
      omega

namespace WellFormed

/-- No two numbers stand for the same term. -/
theorem number_unique (hs : s.WellFormed) {id' : UInt32} (h : s.term? id = some t)
    (h' : s.term? id' = some t) : id = id' := by
  induction t using Term.children_induction generalizing id id' with
  | h t ih =>
    obtain ⟨n, hn, hshows⟩ := exists_node?_of_term? h
    obtain ⟨m, hm, hshows'⟩ := exists_node?_of_term? h'
    obtain rfl : n = m := hshows.inj hshows' fun u hu c c' => ih u hu
    exact Option.some.inj ((hs.ids.2 hn).symm.trans (hs.ids.2 hm))

theorem term?_of_node (hs : s.WellFormed) (h : s.node? id = some n) :
    ∃ t, s.term? id = some t ∧ n.Shows (fun c u => s.term? c = some u) t := by
  obtain ⟨t, ht⟩ := hs.ordered.exists_term? (lt_size_of_node? h)
  exact ⟨t, ht, shows_of_term? ht h⟩

theorem toNat_next (hs : s.WellFormed) (hroom : s.count < UInt32.size) :
    s.next.toNat = s.nodes.size := by
  rw [hs.next, hs.size, UInt32.toNat_ofNat_of_lt' hroom]

theorem node?_add_next (hs : s.WellFormed) (hroom : s.count < UInt32.size) (id : UInt32) :
    (s.add n).2.node? id = if id = s.next then some n else s.node? id :=
  node?_add (hs.toNat_next hroom).le id

theorem le_add (hs : s.WellFormed) (hroom : s.count < UInt32.size) : s ≤ (s.add n).2 := by
  intro id m hm
  have hne : id ≠ s.next := by
    rintro rfl
    exact (lt_size_of_node? hm).ne (hs.toNat_next hroom)
  rw [hs.node?_add_next hroom, if_neg hne, hm]

theorem count_add (hnew : s.ids[n]? = none) : (s.add n).2.count = s.count + 1 := by
  have hnot : n ∉ s.ids := by simp [Std.HashMap.mem_iff_isSome_getElem?, hnew]
  rw [count, add, Std.HashMap.size_insert, if_neg hnot, count]

/-- A new node whose children are there can be added, if there is a number left for it. -/
theorem add (hs : s.WellFormed) (hn : ∀ c ∈ n.children, c.toNat < s.nodes.size)
    (hnew : s.ids[n]? = none) (hroom : s.count < UInt32.size) : (s.add n).2.WellFormed where
  ordered id m hm c hc := by
    rw [hs.node?_add_next hroom] at hm
    split at hm
    · next hid =>
      cases hm
      rw [hid, UInt32.lt_iff_toNat_lt, hs.toNat_next hroom]
      exact hn c hc
    · exact hs.ordered id m hm c hc
  ids {m id} := by
    rw [hs.node?_add_next hroom]
    simp only [Store.add, Std.HashMap.getElem?_insert, beq_iff_eq]
    have hfree : s.node? s.next = none := by
      rw [node?, hs.toNat_next hroom]
      exact Array.getElem?_eq_none le_rfl
    by_cases hm : n = m
    · subst hm
      have hno : s.node? id ≠ some n := fun hid => by simp [hs.ids.2 hid] at hnew
      by_cases hid : id = s.next
      · simp [hid]
      · simp [hid, hno, Ne.symm hid]
    · by_cases hid : id = s.next
      · subst hid
        simp [hm, hs.ids, hfree]
      · simp [hm, hid, hs.ids]
  size := by
    have hsize : (s.add n).2.nodes.size = s.nodes.size + (s.next.toNat + 1 - s.nodes.size) := by
      simp [Store.add]
    rw [hsize, count_add hnew, hs.toNat_next hroom, hs.size]
    omega
  next := by
    rw [count_add hnew, Store.add, hs.next]
    simp
  count_le := by
    rw [count_add hnew]
    exact hroom
  known h := term?_mono (hs.le_add hroom) (hs.known h)

/-- A node whose children are there gets a number under which it is found from then on, unless the
numbers have run out. -/
theorem intern (hs : s.WellFormed) (hn : ∀ c ∈ n.children, c.toNat < s.nodes.size)
    (hroom : (s.intern n).2.count ≤ UInt32.size) :
    (s.intern n).2.WellFormed ∧ s ≤ (s.intern n).2 ∧
      (s.intern n).2.node? (s.intern n).1 = some n := by
  cases hfound : s.ids[n]? with
  | some id =>
    have hintern : s.intern n = (id, s) := by rw [Store.intern, hfound]
    rw [hintern]
    exact ⟨hs, le_refl s, hs.ids.1 hfound⟩
  | none =>
    have hintern : s.intern n = s.add n := by rw [Store.intern, hfound]
    rw [hintern, count_add hfound] at hroom
    rw [hintern]
    refine ⟨hs.add hn hfound hroom, hs.le_add hroom, ?_⟩
    rw [hs.node?_add_next hroom]
    exact if_pos rfl

end WellFormed

/-! ## Putting terms in -/

/-- A number stands for a term, in a store that has all that was there before. -/
structure Given (s : Store) (r : UInt32 × Store) (t : Term) : Prop where
  wellFormed : r.2.WellFormed
  le : s ≤ r.2
  term : r.2.term? r.1 = some t

namespace Given

variable {r : UInt32 × Store}

theorem of_le (h : s'.Given r t) (hle : s ≤ s') : s.Given r t :=
  ⟨h.wellFormed, hle.trans h.le, h.term⟩

theorem remember (h : s.Given r t) : s.Given (remember t r) t := by
  have hle : r.2 ≤ (Store.remember t r).2 := fun _ _ hn => hn
  refine ⟨{ h.wellFormed with known := fun {u c} hu => ?_ }, h.le.trans hle, term?_mono hle h.term⟩
  simp only [Store.remember, Std.HashMap.getElem?_insert] at hu
  split at hu
  · next heq =>
    cases hu
    exact eq_of_beq heq ▸ term?_mono hle h.term
  · exact term?_mono hle (h.wellFormed.known hu)

end Given

/-- A node gets a number for the term that it is the root of, unless the numbers run out. -/
theorem WellFormed.given_intern (hs : s.WellFormed)
    (h : n.Shows (fun c u => s.term? c = some u) t) (hroom : (s.intern n).2.count ≤ UInt32.size) :
    s.Given (s.intern n) t := by
  have hchildren : ∀ c ∈ n.children, c.toNat < s.nodes.size := by
    intro c hc
    obtain ⟨u, hu⟩ := exists_of_forall₂_of_mem h.children hc
    exact lt_size_of_term? hu
  obtain ⟨hs', hle, hn⟩ := hs.intern hchildren hroom
  exact ⟨hs', hle, hs'.ordered.term?_of_shows hn (h.imp fun _ _ _ => term?_mono hle)⟩

/-- Putting a term in gives a number for it, unless the numbers run out. -/
def Enters (t : Term) : Prop :=
  ∀ {s : Store}, s.WellFormed → (put t s).2.count ≤ UInt32.size → s.Given (put t s) t

theorem WellFormed.given_of_known (hs : s.WellFormed) (h : s.known[t]? = some id) :
    s.Given (put t s) t := by
  have hput : put t s = (id, s) := by
    unfold put
    rw [h]
  rw [hput]
  exact ⟨hs, le_refl s, hs.known h⟩

theorem WellFormed.given_putAll {ts : List Term} (hs : s.WellFormed) (hts : ∀ t ∈ ts, Enters t)
    (hroom : (putAll ts s).2.count ≤ UInt32.size) :
    (putAll ts s).2.WellFormed ∧ s ≤ (putAll ts s).2 ∧
      List.Forall₂ (fun c u => (putAll ts s).2.term? c = some u) (putAll ts s).1 ts := by
  induction ts generalizing s with
  | nil => exact ⟨hs, le_refl s, .nil⟩
  | cons t ts ih =>
    have ht := hts t List.mem_cons_self hs ((count_le_putAll ts _).trans hroom)
    obtain ⟨hs', hle, hrest⟩ :=
      ih ht.wellFormed (fun u hu => hts u (List.mem_cons_of_mem t hu)) hroom
    exact ⟨hs', ht.le.trans hle, .cons (term?_mono hle ht.term) hrest⟩

theorem WellFormed.given_putArms {arms : List (Arm Term)} (hs : s.WellFormed)
    (harms : ∀ arm ∈ arms, Enters arm.body) (hroom : (putArms arms s).2.count ≤ UInt32.size) :
    (putArms arms s).2.WellFormed ∧ s ≤ (putArms arms s).2 ∧
      List.Forall₂ (Arm.Alike fun c u => (putArms arms s).2.term? c = some u)
        (putArms arms s).1 arms := by
  induction arms generalizing s with
  | nil => exact ⟨hs, le_refl s, .nil⟩
  | cons arm arms ih =>
    have ht := harms arm List.mem_cons_self hs ((count_le_putArms arms _).trans hroom)
    obtain ⟨hs', hle, hrest⟩ :=
      ih ht.wellFormed (fun arm' h => harms arm' (List.mem_cons_of_mem arm h)) hroom
    exact ⟨hs', ht.le.trans hle, .cons ⟨rfl, rfl, term?_mono hle ht.term⟩ hrest⟩

theorem enters (t : Term) : Enters t := by
  induction t using Term.induction with
  | var i =>
    intro s hs hroom
    cases hk : s.known[Term.var i]? with
    | some id => exact hs.given_of_known hk
    | none =>
      rw [put, hk] at hroom ⊢
      exact (hs.given_intern (.var i) hroom).remember
  | app head args ih =>
    intro s hs hroom
    cases hk : s.known[Term.app head args]? with
    | some id => exact hs.given_of_known hk
    | none =>
      rw [put, hk] at hroom ⊢
      obtain ⟨hs', hle, hargs⟩ := hs.given_putAll ih ((count_le_intern _ _).trans hroom)
      exact ((hs'.given_intern (.app head hargs) hroom).of_le hle).remember
  | cases scrutinee arms ihs ih =>
    intro s hs hroom
    cases hk : s.known[Term.cases scrutinee arms]? with
    | some id => exact hs.given_of_known hk
    | none =>
      rw [put, hk] at hroom ⊢
      have hroom' := (count_le_intern _ _).trans hroom
      have hscrutinee := ihs hs ((count_le_putArms arms _).trans hroom')
      obtain ⟨hs', hle, harms⟩ := hscrutinee.wellFormed.given_putArms ih hroom'
      have hshows := Node.Shows.cases (term?_mono hle hscrutinee.term) harms
      exact ((hs'.given_intern hshows hroom).of_le (hscrutinee.le.trans hle)).remember

end Store

end Monotonicity
