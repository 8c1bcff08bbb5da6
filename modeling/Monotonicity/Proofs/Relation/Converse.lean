import Monotonicity.Proofs.Term.Placeholders
import Monotonicity.Relation.Basic

/-!
# Converses and views of terms

A relation as it stands: what is left when the converses are taken off it, and what its view shows.
Replacing placeholders commutes with both, but for what the replacements bring: an unbound
placeholder behind the converses may become anything, and a converse in particular.
-/

namespace Monotonicity

/-- The parts of a view replaced. -/
def View.map (f : Term → Term) : View → View
  | .arrow dom cod => .arrow (f dom) (f cod)
  | .dependent edge family => .dependent (f edge) (f family)
  | .flip rel => .flip (f rel)
  | .named head args => .named head (args.map f)
  | .equality => .equality
  | .top => .top
  | .bottom => .bottom
  | .placeholder i => .placeholder i
  | .stuck => .stuck

theorem View.map_map (f g : Term → Term) (v : View) : (v.map f).map g = v.map (g ∘ f) := by
  cases v <;> simp [View.map]

/-- The parts of a view. -/
def View.parts : View → List Term
  | .arrow dom cod => [dom, cod]
  | .dependent edge family => [edge, family]
  | .flip rel => [rel]
  | .named _ args => args
  | _ => []

/-- Nothing that is filled in later can change the view but in its parts. -/
def View.Solid : View → Prop
  | .placeholder _ => False
  | .flip rel => ∀ i, rel ≠ .var i
  | _ => True

@[simp] theorem View.shape_map (f : Term → Term) (v : View) : (v.map f).shape = v.shape := by
  cases v <;> rfl

/-- A relation seen one layer deep as it stands. -/
def Term.view (t : Term) : View := Subst.empty.view t

namespace Term

variable {t u core : Term} {odd odd' : Bool} {head : String} {args : List Term} {i : Nat}

theorem view_eq (t : Term) :
    t.view = match t.unflip false with
      | (true, core) => .flip core
      | (false, core) => .ofHead core := rfl

/-! ## Converses -/

theorem unflip_flip (odd : Bool) (t : Term) : t.flip.unflip odd = t.unflip (!odd) := by
  simp [flip, unflip]

/-- Counting from the other parity ends at the other parity. -/
theorem unflip_not (odd : Bool) (t : Term) :
    t.unflip (!odd) = (!(t.unflip odd).1, (t.unflip odd).2) := by
  fun_induction unflip odd t with
  | case1 odd rel ih => simpa [unflip] using ih
  | case2 odd head rel hne => simp [unflip, hne]
  | case3 odd t hne => rw [unflip]; exact hne

/-- What is left when the converses are taken off is none itself. -/
def IsCore (t : Term) : Prop := ∀ u, t ≠ .flip u

theorem IsCore.unflip_eq (h : t.IsCore) (odd : Bool) : t.unflip odd = (odd, t) := by
  unfold unflip
  split
  · next head rel =>
    split
    · next hhead => exact (h rel (by rw [hhead]; rfl)).elim
    · rfl
  · rfl

theorem isCore_of_unflip (h : t.unflip odd = (odd', core)) : core.IsCore := by
  fun_induction unflip odd t with
  | case1 odd rel ih => exact ih h
  | case2 odd head rel hne =>
    cases h
    rintro u ⟨⟩
    exact hne rfl
  | case3 odd t hne =>
    cases h
    rintro u rfl
    exact hne _ _ rfl

/-- Taking converses off commutes with replacing placeholders, but for what the replacements
bring. -/
theorem unflip_subst (f : Nat → Term) (h : t.unflip odd = (odd', core)) :
    (t.subst f).unflip odd = (core.subst f).unflip odd' := by
  fun_induction unflip odd t with
  | case1 odd rel ih =>
    rw [← ih h]
    exact unflip_flip odd (rel.subst f)
  | case2 odd head rel hne => cases h; rfl
  | case3 odd t hne => cases h; rfl

theorem mem_vars_unflip (h : t.unflip odd = (odd', core)) : i ∈ core.vars ↔ i ∈ t.vars := by
  fun_induction unflip odd t with
  | case1 odd rel ih => simp [ih h]
  | case2 odd head rel hne => cases h; rfl
  | case3 odd t hne => cases h; rfl

theorem view_of_unflip (h : t.unflip false = (odd, core)) :
    t.view = if odd then .flip core else .ofHead core := by
  rw [view_eq, h]
  cases odd <;> rfl

/-- The parts of a relation that is no converse are arguments of it. -/
theorem mem_of_mem_parts (hu : u ∈ (View.ofHead (.app head args)).parts) : u ∈ args := by
  match args with
  | [] =>
    simp only [View.ofHead] at hu
    split_ifs at hu <;> simp [View.parts] at hu
  | [a] =>
    simp only [View.ofHead] at hu
    split_ifs at hu <;> simpa [View.parts] using hu
  | [a, b] =>
    simp only [View.ofHead] at hu
    split_ifs at hu <;> simpa [View.parts] using hu
  | a :: b :: c :: rest => exact hu

/-- The parts of a relation hold no other placeholders than the relation. -/
theorem vars_of_mem_parts (hu : u ∈ t.view.parts) (hi : i ∈ u.vars) : i ∈ t.vars := by
  obtain ⟨odd, core, h⟩ : ∃ odd core, t.unflip false = (odd, core) := ⟨_, _, rfl⟩
  rw [view_of_unflip h] at hu
  rw [← mem_vars_unflip h]
  cases odd with
  | true =>
    obtain rfl : u = core := by simpa [View.parts] using hu
    exact hi
  | false =>
    cases core with
    | var j => simp [View.ofHead, View.parts] at hu
    | cases s arms => simp [View.ofHead, View.parts] at hu
    | app head args => exact mem_vars_app.2 ⟨u, mem_of_mem_parts hu, hi⟩

theorem IsCore.subst (h : t.IsCore) (hv : ∀ i, t ≠ .var i) (f : Nat → Term) :
    (t.subst f).IsCore := by
  cases t with
  | var i => exact (hv i rfl).elim
  | cases s arms =>
    rintro u hu
    simp [flip] at hu
  | app head args =>
    rintro u hu
    simp only [subst_app, flip, app.injEq, List.map_eq_singleton_iff] at hu
    obtain ⟨rfl, v, rfl, -⟩ := hu
    exact h v rfl

theorem ofHead_subst (hv : ∀ i, t ≠ .var i) (f : Nat → Term) :
    View.ofHead (t.subst f) = (View.ofHead t).map (·.subst f) := by
  cases t with
  | var i => exact (hv i rfl).elim
  | cases s arms => simp [View.ofHead, View.map]
  | app head args =>
    rw [subst_app]
    match args with
    | [] =>
      simp only [View.ofHead, List.map_nil]
      split_ifs <;> rfl
    | [a] =>
      simp only [View.ofHead, List.map_cons, List.map_nil]
      split_ifs <;> rfl
    | [a, b] =>
      simp only [View.ofHead, List.map_cons, List.map_nil]
      split_ifs <;> rfl
    | a :: b :: c :: rest => rfl

theorem IsCore.ofHead_ne_flip (h : t.IsCore) (u : Term) : View.ofHead t ≠ .flip u := by
  intro hu
  cases t with
  | var i => simp [View.ofHead] at hu
  | cases s arms => simp [View.ofHead] at hu
  | app head args =>
    match args with
    | [] =>
      simp only [View.ofHead] at hu
      split_ifs at hu
    | [a] =>
      simp only [View.ofHead] at hu
      split_ifs at hu with hhead
      exact h a (by rw [hhead]; rfl)
    | [a, b] =>
      simp only [View.ofHead] at hu
      split_ifs at hu
    | a :: b :: c :: rest => simp [View.ofHead] at hu

theorem view_subst (h : t.view.Solid) (f : Nat → Term) :
    (t.subst f).view = t.view.map (·.subst f) := by
  obtain ⟨odd, core, hu⟩ : ∃ odd core, t.unflip false = (odd, core) := ⟨_, _, rfl⟩
  rw [view_of_unflip hu] at h ⊢
  have hv : ∀ i, core ≠ .var i := by
    rintro i rfl
    cases odd <;> simp [View.Solid, View.ofHead] at h
  have hs := unflip_subst f hu
  rw [((isCore_of_unflip hu).subst hv f).unflip_eq] at hs
  rw [view_of_unflip hs]
  cases odd with
  | true => rfl
  | false => exact ofHead_subst hv f

end Term

end Monotonicity
