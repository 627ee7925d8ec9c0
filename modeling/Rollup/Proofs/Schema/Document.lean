import Mathlib.Data.List.Nodup
import Rollup.Proofs.Schema.Cycle
import Rollup.Schema.Document

/-! Every name in a schema that is read is the name of one column.

Each column is declared under a name that was not known before and is put behind the columns of its
kind, so no stored column and no other definition is found in the place of a derived one.
-/

set_option autoImplicit false

namespace Rollup

theorem putNamed_of_new {α : Type} {nameOf : α → String} {entry : α} {entries : List α}
    (new : nameOf entry ∉ entries.map nameOf) :
    putNamed nameOf entry entries = entries ++ [entry] := by
  induction entries with
  | nil => rfl
  | cons other rest ih =>
    rw [List.map_cons, List.mem_cons, not_or] at new
    rw [putNamed, if_neg (Ne.symm new.1), ih new.2, List.cons_append]

theorem names_putNamed {α : Type} {nameOf : α → String} {entry : α} {entries : List α}
    (new : nameOf entry ∉ entries.map nameOf) :
    ((putNamed nameOf entry entries).map nameOf).Perm (nameOf entry :: entries.map nameOf) := by
  rw [putNamed_of_new new, List.map_append]
  exact List.perm_append_singleton _ _

namespace Schema
variable {schema : Schema} {name : String}

theorem column?_eq_none_iff : schema.column? name = none ↔ name ∉ schema.names := by
  have absent : ∀ {α : Type} {nameOf : α → String} {entries : List α},
      entries.find? (fun entry => nameOf entry == name) = none ↔ name ∉ entries.map nameOf := by
    intro α nameOf entries
    simp [List.find?_eq_none]
  rw [column?, names, List.mem_cons, List.mem_append, List.mem_append, not_or, not_or, not_or,
    ← absent, ← absent, ← absent, ← dimension?, ← metric?, ← derived?]
  split
  · simp_all
  · split
    · simp_all
    · split <;> simp_all

theorem unknown_of_refuseKnown (ok : schema.refuseKnown name = .ok ()) : name ∉ schema.names := by
  refine column?_eq_none_iff.mp ?_
  rw [refuseKnown] at ok
  split at ok
  · cases ok
  · rename_i unknown
    simpa using unknown

/-! ## Declaring columns -/

theorem names_addDimension {column : Dimension} (new : column.name ∉ schema.names) :
    (schema.addDimension column).names.Perm (column.name :: schema.names) := by
  have behind := names_putNamed fun listed : column.name ∈ schema.dimensions.map (·.name) =>
    new (by simp [names, listed])
  exact (((behind.append_right _).append_right _).cons _).trans (.swap _ _ _)

theorem names_addMetric {column : Metric} (new : column.name ∉ schema.names) :
    (schema.addMetric column).names.Perm (column.name :: schema.names) := by
  have behind := names_putNamed fun listed : column.name ∈ schema.metrics.map (·.name) =>
    new (by simp [names, listed])
  exact ((((behind.append_left _).trans List.perm_middle).append_right _).cons _).trans
    (.swap _ _ _)

theorem names_addDerived {column : DerivedColumn} (new : column.name ∉ schema.names) :
    (schema.addDerived column).names.Perm (column.name :: schema.names) := by
  have behind := names_putNamed fun listed : column.name ∈ schema.derived.map (·.name) =>
    new (by simp [names, listed])
  exact (((behind.append_left _).trans List.perm_middle).cons _).trans (.swap _ _ _)

theorem nodup_names_of_new {schema' : Schema} (distinct : schema.names.Nodup)
    (new : name ∉ schema.names) (adds : schema'.names.Perm (name :: schema.names)) :
    schema'.names.Nodup :=
  adds.nodup_iff.mpr (List.nodup_cons.mpr ⟨new, distinct⟩)

theorem nodup_declareDimension {schema' : Schema} {entry : DimensionEntry}
    (ok : schema.declareDimension entry = .ok schema') (distinct : schema.names.Nodup) :
    schema'.names.Nodup := by
  simp only [declareDimension, bind_eq_ok, pure_eq_ok] at ok
  obtain ⟨⟨⟩, new, dataType, -, rfl⟩ := ok
  have new := unknown_of_refuseKnown new
  exact nodup_names_of_new distinct new (names_addDimension new)

theorem nodup_declareMetric {schema' : Schema} {entry : MetricEntry}
    (ok : schema.declareMetric entry = .ok schema') (distinct : schema.names.Nodup) :
    schema'.names.Nodup := by
  simp only [declareMetric, bind_eq_ok, pure_eq_ok] at ok
  obtain ⟨⟨⟩, new, dataType, -, aggregator, -, rfl⟩ := ok
  have new := unknown_of_refuseKnown new
  exact nodup_names_of_new distinct new (names_addMetric new)

theorem nodup_declareDerived {schema' : Schema} {entry : DerivedEntry}
    (ok : schema.declareDerived entry = .ok schema') (distinct : schema.names.Nodup) :
    schema'.names.Nodup := by
  simp only [declareDerived, bind_eq_ok] at ok
  obtain ⟨⟨⟩, new, ok⟩ := ok
  have new := unknown_of_refuseKnown new
  rw [defineDerived] at ok
  split at ok
  · cases ok
    exact nodup_names_of_new distinct new (names_addDerived new)
  · cases ok

/-- A schema that is read declares no name twice. -/
theorem nodup_names_parse {text : String} (loaded : parse text = .ok schema) :
    schema.names.Nodup := by
  rw [parse] at loaded
  split at loaded
  · cases loaded
  simp only [ofDocument, bind_eq_ok] at loaded
  obtain ⟨second, dimensions, third, metrics, derived⟩ := loaded
  have start := foldlM_invariant (I := fun schema => schema.names.Nodup)
    (fun _ _ _ => nodup_declareDimension) dimensions (by simp [names])
  have start := foldlM_invariant (I := fun schema => schema.names.Nodup)
    (fun _ _ _ => nodup_declareMetric) metrics start
  exact foldlM_invariant (I := fun schema => schema.names.Nodup)
    (fun _ _ _ => nodup_declareDerived) derived start

theorem column?_derived (distinct : schema.names.Nodup) (derived : name ∈ schema.derivedNames) :
    ∃ column, schema.column? name = some (.derived column) := by
  rw [names, List.nodup_cons, List.nodup_append] at distinct
  obtain ⟨timestamp, -, -, apart⟩ := distinct
  have unstored : ∀ {α : Type} {nameOf : α → String} {entries : List α},
      (∀ other ∈ entries.map nameOf, other ≠ name) →
        entries.find? (fun entry => nameOf entry == name) = none := by
    intro α nameOf entries differ
    simpa [List.find?_eq_none] using differ
  have dimensions : schema.dimension? name = none := unstored fun other listed =>
    apart other (List.mem_append_left _ listed) name derived
  have metrics : schema.metric? name = none := unstored fun other listed =>
    apart other (List.mem_append_right _ listed) name derived
  have unnamed : name ≠ schema.timestamp := fun same =>
    timestamp (same ▸ List.mem_append_right _ derived)
  cases found : schema.derived? name with
  | some column => exact ⟨column, by rw [column?, if_neg unnamed, dimensions, metrics, found]; rfl⟩
  | none =>
    obtain ⟨column, listed, rfl⟩ := List.mem_map.mp derived
    exact absurd (beq_self_eq_true _) (List.find?_eq_none.mp found column listed)

end Schema

end Rollup
