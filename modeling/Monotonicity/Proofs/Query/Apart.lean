import Monotonicity.Proofs.Apart.Library
import Monotonicity.Proofs.Query.Escape
import Monotonicity.Proofs.Renaming.Library

/-!
# Queries keep placeholders apart

A query starts with the caller's placeholders, and numbers its own ones from behind those. Whatever
is registered is renamed to a block of new placeholders for each use, and blocks are never given
back, so that no use meets another one or the caller. This depends on what is used without being
renamed: the relations that schemes fix and the values of computations must not have placeholders.
-/

namespace Monotonicity

open Search

/-! ## What is registered -/

/-- What an engine can have been told. Facts and inclusions come in by being registered, and
everything else may be declared at any time. -/
inductive Registry.Told : Registry → Prop
  | start {r : Registry} (hfacts : r.facts = #[]) (hinclusions : r.inclusions = #[]) : Told r
  | fact {r r' : Registry} {rel left right witness : Term} {id : Nat} (h : Told r)
    (hadd : r.addFact? rel left right witness = some (id, r')) : Told r'
  | self {r r' : Registry} {rel term witness : Term} {id : Nat} (h : Told r)
    (hadd : r.addSelf? rel term witness = some (id, r')) : Told r'
  | inclusion {r r' : Registry} {lesser greater witness : Term} {id : Nat} (h : Told r)
    (hadd : r.addInclusion? lesser greater witness = some (id, r')) : Told r'
  | declare {r r' : Registry} (h : Told r) (hfacts : r'.facts = r.facts)
    (hinclusions : r'.inclusions = r.inclusions) : Told r'

theorem over_of_schematic? {terms : List Term} {n : Nat} {u : Term}
    (h : schematic? terms = some n) (hu : u ∈ terms) : u.Over (· < n) :=
  fun _ hi => lt_of_schematic? h hu hi

namespace Registry.Bounded

variable {r r' : Registry} {rel left right term lesser greater witness : Term} {id : Nat}

theorem addFact? (h : r.Bounded) (hadd : r.addFact? rel left right witness = some (id, r')) :
    r'.Bounded := by
  obtain ⟨n, hn, heq⟩ := Option.map_eq_some_iff.1 hadd
  cases heq
  refine ⟨fun f hf => ?_, h.inclusions⟩
  rcases Array.mem_push.1 hf with hf | rfl
  · exact h.facts f hf
  · exact ⟨over_of_schematic? hn (by simp), over_of_schematic? hn (by simp),
      over_of_schematic? hn (by simp), over_of_schematic? hn (by simp)⟩

theorem addSelf? (h : r.Bounded) (hadd : r.addSelf? rel term witness = some (id, r')) :
    r'.Bounded := by
  obtain ⟨n, hn, heq⟩ := Option.map_eq_some_iff.1 hadd
  cases heq
  refine ⟨fun f hf => ?_, h.inclusions⟩
  rcases Array.mem_push.1 hf with hf | rfl
  · exact h.facts f hf
  · exact ⟨over_of_schematic? hn (by simp), over_of_schematic? hn (by simp),
      over_of_schematic? hn (by simp), over_of_schematic? hn (by simp)⟩

theorem addInclusion? (h : r.Bounded)
    (hadd : r.addInclusion? lesser greater witness = some (id, r')) : r'.Bounded := by
  obtain ⟨n, hn, heq⟩ := Option.map_eq_some_iff.1 hadd
  cases heq
  refine ⟨h.facts, fun f hf => ?_⟩
  rcases Array.mem_push.1 hf with hf | rfl
  · exact h.inclusions f hf
  · exact ⟨over_of_schematic? hn (by simp), over_of_schematic? hn (by simp),
      over_of_schematic? hn (by simp)⟩

end Registry.Bounded

/-- What an engine was told has enough placeholders set aside for every use. -/
theorem Registry.Told.bounded {r : Registry} (h : r.Told) : r.Bounded := by
  induction h with
  | start hfacts hinclusions => exact ⟨by simp [hfacts], by simp [hinclusions]⟩
  | fact _ hadd ih => exact ih.addFact? hadd
  | self _ hadd ih => exact ih.addSelf? hadd
  | inclusion _ hadd ih => exact ih.addInclusion? hadd
  | declare _ hfacts hinclusions ih =>
    exact ⟨by rw [hfacts]; exact ih.facts, by rw [hinclusions]; exact ih.inclusions⟩

theorem Theory.over_of_ground {T : Theory} (hfixed : ∀ rel ∈ T.registry.fixed, rel.vars = [])
    (hcomputed : ∀ entry ∈ T.registry.computations.entries, entry.2.vars = []) :
    T.Over fun _ => False where
  fixed head scheme hscheme pair hpair rel hrel i hi := by
    rw [hfixed rel (Registry.mem_fixed hscheme hpair hrel)] at hi
    cases hi
  computed term value h i hi := by
    rw [hcomputed _ (Table.mem_of_get? h)] at hi
    cases hi

/-! ## Runs -/

namespace Engine

variable {E : Engine}

/-- The solver of an engine with a test at every call. -/
noncomputable def tested (E : Engine) (alarm : (ρ : Type) → Search ρ) : Prover :=
  solveTested E.theory alarm E.theory.limits.maxDepth

theorem apart_start (bound : Nat) : (E.start bound).Apart where
  acyclic := Subst.acyclic_empty
  only :=
    { subst := fun b hb => by cases hb
      hyps := fun x hx => by cases hx
      active := fun g hg => by cases hg
      delayed := fun p hp => by cases hp }

end Engine

end Monotonicity
