import Monotonicity.Proofs.Renaming.Term
import Monotonicity.Substitution.Unification

/-!
# Bindings under other names

A renaming acts on bindings by changing both the placeholders and their terms. What is looked up,
resolved or unified under other names is what would have been, under these names. Unification binds
the larger one of two placeholders; a shift does not change which one that is.
-/

namespace Monotonicity

namespace Subst

/-- The bindings with other names. -/
def renamed (r : Renaming) : Subst → Subst
  | .empty => .empty
  | .bind σ i t => .bind (σ.renamed r) (i + r.shift) (r • t)

end Subst

instance : SMul Renaming Subst := ⟨Subst.renamed⟩

namespace Subst

variable {r : Renaming} {σ τ : Subst} {i j : Nat} {t u a b : Term}

@[simp] theorem smul_empty : r • Subst.empty = .empty := rfl

@[simp] theorem smul_bind : r • Subst.bind σ i t = .bind (r • σ) (i + r.shift) (r • t) := rfl

@[simp] theorem get?_smul (σ : Subst) (i : Nat) :
    (r • σ).get? (i + r.shift) = (σ.get? i).map (r • ·) := by
  induction σ with
  | empty => simp
  | bind σ j t ih =>
    rw [smul_bind]
    by_cases h : i = j
    · subst h
      simp
    · rw [get?_bind_of_ne _ (by omega), get?_bind_of_ne _ h, ih]

@[simp] theorem isBound_smul (σ : Subst) (i : Nat) :
    (r • σ).isBound (i + r.shift) = σ.isBound i := by
  simp [isBound]

@[simp] theorem size_smul (σ : Subst) : (r • σ).size = σ.size := by
  induction σ with
  | empty => rfl
  | bind σ i t ih => simp [ih]

theorem trail_smul (σ : Subst) :
    (r • σ).trail = σ.trail.map fun b => (b.1 + r.shift, r • b.2) := by
  induction σ with
  | empty => rfl
  | bind σ i t ih => simp [trail, ih]

theorem dropLast_smul (n : Nat) (σ : Subst) : dropLast n (r • σ) = r • dropLast n σ := by
  fun_induction dropLast n σ with
  | case1 n σ i t ih => simpa [dropLast] using ih
  | case2 n σ h =>
    cases n with
    | zero => simp [dropLast]
    | succ n =>
      cases σ with
      | empty => rfl
      | bind σ i t => exact (h n σ i t rfl rfl).elim

@[simp] theorem rollback_smul (σ : Subst) (mark : Nat) :
    (r • σ).rollback mark = r • σ.rollback mark := by
  simp [rollback, dropLast_smul]

/-! ## Following bindings -/

theorem walkFor_smul (σ τ : Subst) (t : Term) :
    (r • σ).walkFor (r • τ) (r • t) = r • σ.walkFor τ t := by
  induction τ generalizing t with
  | empty => cases t <;> rfl
  | bind τ j u ih =>
    cases t with
    | var i =>
      rw [smul_bind, Term.smul_var, walkFor, walkFor, get?_smul]
      cases σ.get? i with
      | none => rfl
      | some v => exact ih v
    | app head args => simp [walkFor]
    | cases s arms => simp [walkFor]

@[simp] theorem walk_smul (σ : Subst) (t : Term) : (r • σ).walk (r • t) = r • σ.walk t :=
  walkFor_smul σ σ t

theorem resolveFor_smul (σ τ : Subst) (t : Term) :
    (r • σ).resolveFor (r • τ) (r • t) = r • σ.resolveFor τ t := by
  induction τ generalizing t with
  | empty => rfl
  | bind τ j u ih =>
    rw [smul_bind, resolveFor, resolveFor, Term.replace_eq_subst, Term.replace_eq_subst]
    refine Term.smul_subst fun i _ => ?_
    rw [get?_smul]
    cases σ.get? i with
    | none => rfl
    | some v => exact ih v

@[simp] theorem resolve_smul (σ : Subst) (t : Term) : (r • σ).resolve (r • t) = r • σ.resolve t :=
  resolveFor_smul σ σ t

theorem reachesFor_smul (σ τ : Subst) (t : Term) {p p' : Nat → Bool}
    (hp : ∀ i, p' (i + r.shift) = p i) :
    (r • σ).reachesFor p' (r • τ) (r • t) = σ.reachesFor p τ t := by
  induction τ generalizing t with
  | empty => simp [reachesFor, Term.any_smul, hp]
  | bind τ j u ih =>
    rw [smul_bind, reachesFor, reachesFor, Term.any_smul]
    congr 1
    funext i
    rw [get?_smul]
    cases σ.get? i with
    | none => exact hp i
    | some v => exact ih v

theorem occurs_smul (σ : Subst) (i : Nat) (t : Term) :
    (r • σ).occurs (i + r.shift) (r • t) = σ.occurs i t :=
  reachesFor_smul σ σ t fun j => by
    rw [Bool.eq_iff_iff]
    simp

/-! ## Unification -/

theorem aligned_smul (hr : r.Proper) (xs ys : List (Arm Term)) :
    aligned (xs.map (r • ·)) (ys.map (r • ·)) = aligned xs ys := by
  have hname : Function.Injective fun p : String × Nat => (r.name p.1, p.2) := by
    rintro ⟨c, n⟩ ⟨c', n'⟩ h
    simp only [Prod.mk.injEq] at h ⊢
    exact ⟨hr.injective h.1, h.2⟩
  have hmap (zs : List (Arm Term)) : (zs.map (r • ·)).map (fun arm => (arm.ctor, arm.arity)) =
      (zs.map fun arm => (arm.ctor, arm.arity)).map fun p => (r.name p.1, p.2) := by
    simp
  rw [Bool.eq_iff_iff, aligned, aligned, beq_iff_eq, beq_iff_eq, hmap, hmap,
    (List.map_injective_iff.2 hname).eq_iff]

theorem bindNew?_smul (σ : Subst) (i : Nat) (t : Term) :
    (r • σ).bindNew? (i + r.shift) (r • t) = (σ.bindNew? i t).map (r • ·) := by
  unfold bindNew?
  rw [isBound_smul]
  split <;> rfl

theorem assign?_smul (σ : Subst) (i : Nat) (t : Term) :
    (r • σ).assign? (i + r.shift) (r • t) = (σ.assign? i t).map (r • ·) := by
  unfold assign?
  rw [occurs_smul]
  split
  · rfl
  · exact bindNew?_smul σ i t

theorem fill?_smul (σ : Subst) (i : Nat) (t : Term) :
    (r • σ).fill? (i + r.shift) (r • t) = (σ.fill? i t).map (r • ·) := by
  cases t with
  | var j =>
    simp only [Term.smul_var, fill?, Nat.add_right_cancel_iff, Nat.add_lt_add_iff_right]
    by_cases heq : i = j
    · simp [heq]
    · by_cases hlt : i < j
      · simpa [heq, hlt] using bindNew?_smul σ j (.var i)
      · simpa [heq, hlt] using bindNew?_smul σ i (.var j)
  | app head args => exact assign?_smul σ i _
  | cases s arms => exact assign?_smul σ i _

mutual
theorem descend_smul (hr : r.Proper) {follow follow' : Term → Term → Subst → Option Subst}
    (hfollow : ∀ a b σ, follow' (r • a) (r • b) (r • σ) = (follow a b σ).map (r • ·)) :
    (a b : Term) → (σ : Subst) →
      descend follow' (r • a) (r • b) (r • σ) = (descend follow a b σ).map (r • ·)
  | .var i, b, σ => by
    rw [Term.smul_var, descend, descend, get?_smul, walk_smul, fill?_smul]
    cases σ.get? i with
    | none => rfl
    | some t => exact hfollow t b σ
  | .app f xs, b, σ => by
    simp only [Term.smul_app, descend, walk_smul]
    rw [← Term.smul_app]
    simp only [Term.smul_inj hr]
    split
    · rfl
    · cases σ.walk b with
      | var j =>
        exact assign?_smul σ j _
      | app g ys =>
        simp only [Term.smul_app, hr.injective.eq_iff, List.length_map]
        split
        · exact descendAll_smul hr hfollow xs ys σ
        · rfl
      | cases t ys => rw [Term.smul_cases]; rfl
  | .cases s xs, b, σ => by
    simp only [Term.smul_cases, descend, walk_smul]
    rw [← Term.smul_cases]
    simp only [Term.smul_inj hr]
    split
    · rfl
    · cases σ.walk b with
      | var j =>
        exact assign?_smul σ j _
      | app g ys => rw [Term.smul_app]; rfl
      | cases t ys =>
        simp only [Term.smul_cases, aligned_smul hr]
        split
        · rw [descendArms_smul hr hfollow xs ys σ]
          cases descendArms follow xs ys σ with
          | none => rfl
          | some τ => exact descend_smul hr hfollow s t τ
        · rfl

theorem descendAll_smul (hr : r.Proper) {follow follow' : Term → Term → Subst → Option Subst}
    (hfollow : ∀ a b σ, follow' (r • a) (r • b) (r • σ) = (follow a b σ).map (r • ·)) :
    (xs ys : List Term) → (σ : Subst) →
      descendAll follow' (xs.map (r • ·)) (ys.map (r • ·)) (r • σ) =
        (descendAll follow xs ys σ).map (r • ·)
  | x :: xs, y :: ys, σ => by
    simp only [List.map_cons, descendAll]
    rw [descendAll_smul hr hfollow xs ys σ]
    cases descendAll follow xs ys σ with
    | none => rfl
    | some τ => exact descend_smul hr hfollow x y τ
  | [], _, σ => rfl
  | _ :: _, [], σ => rfl

theorem descendArms_smul (hr : r.Proper) {follow follow' : Term → Term → Subst → Option Subst}
    (hfollow : ∀ a b σ, follow' (r • a) (r • b) (r • σ) = (follow a b σ).map (r • ·)) :
    (xs ys : List (Arm Term)) → (σ : Subst) →
      descendArms follow' (xs.map (r • ·)) (ys.map (r • ·)) (r • σ) =
        (descendArms follow xs ys σ).map (r • ·)
  | ⟨c, n, x⟩ :: xs, y :: ys, σ => by
    change (descendArms follow' (xs.map (r • ·)) (ys.map (r • ·)) (r • σ)).bind
      (descend follow' (r • x) (r • y.body)) = _
    rw [descendArms_smul hr hfollow xs ys σ, descendArms]
    cases descendArms follow xs ys σ with
    | none => rfl
    | some τ => exact descend_smul hr hfollow x y.body τ
  | [], _, σ => rfl
  | _ :: _, [], σ => rfl
end

/-- The units of a budget depend on the shape of terms only. -/
theorem unifyFor_smul (hr : r.Proper) (budget : Budget) (a b : Term) (σ : Subst) :
    unifyFor budget (r • a) (r • b) (r • σ) = (unifyFor budget a b σ).map (r • ·) := by
  induction budget generalizing a b σ with
  | spent => exact descend_smul hr (fun _ _ _ => rfl) a b σ
  | more rest ih => exact descend_smul hr (ih ()) a b σ

end Subst

namespace Budget

variable {r : Renaming}

mutual
theorem ofTerm_smul (rest : Budget) : (t : Term) → ofTerm rest (r • t) = ofTerm rest t
  | .var _ => rfl
  | .app head args => by
    rw [Term.smul_app, ofTerm, ofTerm, ofTerms_smul rest args]
  | .cases s arms => by
    rw [Term.smul_cases, ofTerm, ofTerm, ofArms_smul rest arms, ofTerm_smul _ s]

theorem ofTerms_smul (rest : Budget) :
    (ts : List Term) → ofTerms rest (ts.map (r • ·)) = ofTerms rest ts
  | [] => rfl
  | t :: ts => by
    rw [List.map_cons, ofTerms, ofTerms, ofTerms_smul rest ts, ofTerm_smul _ t]

theorem ofArms_smul (rest : Budget) :
    (arms : List (Arm Term)) → ofArms rest (arms.map (r • ·)) = ofArms rest arms
  | [] => rfl
  | ⟨c, n, t⟩ :: arms => by
    change ofTerm (ofArms rest (arms.map (r • ·))) (r • t) = _
    rw [ofArms, ofArms_smul rest arms, ofTerm_smul _ t]
end

theorem ofSubst_smul (σ : Subst) : ofSubst (r • σ) = ofSubst σ := by
  induction σ with
  | empty => rfl
  | bind σ i t ih => rw [Subst.smul_bind, ofSubst, ofSubst, ih, ofTerm_smul]

end Budget

namespace Subst

variable {r : Renaming}

/-- Terms are unified under other names as they would have been. -/
theorem unify_smul (hr : r.Proper) (σ : Subst) (a b : Term) :
    (r • σ).unify (r • a) (r • b) = (σ.unify a b).map (r • ·) := by
  have hbudget : Budget.ofTerms (.ofSubst (r • σ)) [r • a, r • b] =
      Budget.ofTerms (.ofSubst σ) [a, b] := by
    rw [Budget.ofSubst_smul]
    exact Budget.ofTerms_smul _ [a, b]
  rw [unify, unify, hbudget]
  exact unifyFor_smul hr _ a b σ

end Subst

/-! ## Relations -/

namespace View

/-- The view with other names. -/
def renamed (r : Renaming) : View → View
  | .equality => .equality
  | .top => .top
  | .bottom => .bottom
  | .arrow dom cod => .arrow (r • dom) (r • cod)
  | .dependent edge family => .dependent (r • edge) (r • family)
  | .flip rel => .flip (r • rel)
  | .named head args => .named (r.name head) (args.map (r • ·))
  | .placeholder i => .placeholder (i + r.shift)
  | .stuck => .stuck

end View

instance : SMul Renaming View := ⟨View.renamed⟩

/-- The shape with other names. -/
def Shape.renamed (r : Renaming) : Shape → Shape
  | .named head => .named (r.name head)
  | shape => shape

namespace View

variable {r : Renaming}

@[simp] theorem smul_equality : r • View.equality = .equality := rfl

@[simp] theorem smul_top : r • View.top = .top := rfl

@[simp] theorem smul_bottom : r • View.bottom = .bottom := rfl

@[simp] theorem smul_arrow (dom cod : Term) :
    r • View.arrow dom cod = .arrow (r • dom) (r • cod) := rfl

@[simp] theorem smul_dependent (edge family : Term) :
    r • View.dependent edge family = .dependent (r • edge) (r • family) := rfl

@[simp] theorem smul_flip (rel : Term) : r • View.flip rel = .flip (r • rel) := rfl

@[simp] theorem smul_named (head : String) (args : List Term) :
    r • View.named head args = .named (r.name head) (args.map (r • ·)) := rfl

@[simp] theorem smul_placeholder (i : Nat) :
    r • View.placeholder i = .placeholder (i + r.shift) := rfl

@[simp] theorem smul_stuck : r • View.stuck = .stuck := rfl

theorem shape_smul (v : View) : (r • v).shape = v.shape.renamed r := by
  cases v <;> rfl

theorem smul_inj (hr : r.Proper) {v w : View} : r • v = r • w ↔ v = w := by
  have hterms : Function.Injective (List.map fun t : Term => r • t) :=
    List.map_injective_iff.2 fun _ _ => (Term.smul_inj hr).1
  cases v <;> cases w <;> simp [Term.smul_inj hr, hr.injective.eq_iff, hterms.eq_iff]

theorem ofHead_smul (hr : r.Proper) (t : Term) : ofHead (r • t) = r • ofHead t := by
  have hreserved {head c : String} (hc : c ∈ Reserved.all) : r.name head = c ↔ head = c :=
    hr.eq_reserved hc
  match t with
  | .var i => rfl
  | .cases s arms => rw [Term.smul_cases]; rfl
  | .app head [] =>
    simp only [Term.smul_app, List.map_nil, ofHead, hreserved (c := Reserved.equality) (by decide),
      hreserved (c := Reserved.top) (by decide), hreserved (c := Reserved.bottom) (by decide)]
    repeat' split
    all_goals rfl
  | .app head [a] =>
    simp only [Term.smul_app, List.map_cons, List.map_nil, ofHead,
      hreserved (c := Reserved.flip) (by decide)]
    split <;> rfl
  | .app head [a, b] =>
    simp only [Term.smul_app, List.map_cons, List.map_nil, ofHead,
      hreserved (c := Reserved.arrow) (by decide), hreserved (c := Reserved.dependent) (by decide)]
    repeat' split
    all_goals rfl
  | .app head (a :: b :: c :: args) => simp [ofHead]

end View

namespace Term

variable {r : Renaming}

theorem unflip_smul (hr : r.Proper) (odd : Bool) (t : Term) :
    (r • t).unflip odd = ((t.unflip odd).1, r • (t.unflip odd).2) := by
  fun_induction unflip odd t with
  | case1 odd rel ih =>
    rw [smul_app, hr.reserved _ (by decide)]
    simpa [unflip] using ih
  | case2 odd head rel h =>
    have hne : r.name head ≠ Reserved.flip := fun heq => h ((hr.eq_reserved (by decide)).1 heq)
    simp [unflip, hne]
  | case3 odd t h =>
    cases t with
    | var i => rfl
    | cases s arms => simp [unflip]
    | app head args =>
      cases args with
      | nil => simp [unflip]
      | cons a args =>
        cases args with
        | nil => exact (h head a rfl).elim
        | cons b args => simp [unflip]

/-- The reserved heads of relations are kept. -/
theorem smul_equality (hr : r.Proper) : r • equality = equality := by
  simp [equality, hr.reserved Reserved.equality (by decide)]

theorem smul_arrow (hr : r.Proper) (dom cod : Term) :
    r • arrow dom cod = arrow (r • dom) (r • cod) := by
  simp [arrow, hr.reserved Reserved.arrow (by decide)]

theorem smul_flip (hr : r.Proper) (rel : Term) : r • rel.flip = (r • rel).flip := by
  simp [flip, hr.reserved Reserved.flip (by decide)]

end Term

namespace Subst

variable {r : Renaming}

theorem unflipFor_smul (hr : r.Proper) (σ τ : Subst) (odd : Bool) (t : Term) :
    (r • σ).unflipFor (r • τ) odd (r • t) =
      ((σ.unflipFor τ odd t).1, r • (σ.unflipFor τ odd t).2) := by
  induction τ generalizing odd t with
  | empty => exact Term.unflip_smul hr odd t
  | bind τ j u ih =>
    rw [smul_bind, unflipFor, unflipFor, Term.unflip_smul hr odd t]
    obtain ⟨odd', core⟩ := t.unflip odd
    cases core with
    | var i =>
      simp only [Term.smul_var, get?_smul]
      cases σ.get? i with
      | none => rfl
      | some v => exact ih odd' v
    | app head args => simp
    | cases s arms => simp

@[simp] theorem view_smul (hr : r.Proper) (σ : Subst) (rel : Term) :
    (r • σ).view (r • rel) = r • σ.view rel := by
  rw [view, view, unflipFor_smul hr]
  obtain ⟨_ | _, core⟩ := σ.unflipFor σ false rel
  · exact View.ofHead_smul hr core
  · rfl

theorem family?_smul (hr : r.Proper) (σ : Subst) (family left right edge : Term) :
    (r • σ).family? (r • family) (r • left) (r • right) (r • edge) =
      (σ.family? family left right edge).map (r • ·) := by
  have hextend (t : Term) : (r • t).extend? [r • left, r • right, r • edge] =
      (t.extend? [left, right, edge]).map (r • ·) := Term.extend?_smul t [left, right, edge]
  rw [family?, family?, walk_smul]
  match σ.walk family with
  | .app head [rel] =>
    simp only [Term.smul_app, List.map_cons, List.map_nil,
      hr.eq_reserved (show Reserved.const ∈ Reserved.all by decide)]
    split <;> simp
  | .app head [] => simpa using hextend (.app head [])
  | .app head (a :: b :: args) => simpa using hextend (.app head (a :: b :: args))
  | .var i => rfl
  | .cases s arms => simpa using hextend (.cases s arms)

theorem taken?_smul (hr : r.Proper) (σ : Subst) (t : Term) :
    Search.taken? (r • σ) (r • t) = (Search.taken? σ t).map (r • ·) := by
  rw [Search.taken?, Search.taken?, walk_smul]
  cases σ.walk t with
  | var i => rfl
  | app head args => simp
  | cases s arms =>
    simp only [Term.smul_cases, walk_smul]
    cases σ.walk s with
    | var i => rfl
    | cases s' arms' => simp
    | app ctor fields =>
      simp only [Term.smul_app, armFor?_smul hr]
      cases armFor? arms ctor with
      | none => rfl
      | some arm => by_cases h : arm.arity = fields.length <;> simp [Option.filter, h]

end Subst

end Monotonicity
