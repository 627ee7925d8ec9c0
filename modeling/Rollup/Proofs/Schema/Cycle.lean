import Mathlib.Logic.Relation
import Rollup.Proofs.Computation
import Rollup.Schema.Validation

/-! What validation says about references between derived columns.

The names that a derived column leads to are exactly those that one or more references connect it
with, so in a schema that is accepted no derived column is connected with itself.
-/

set_option autoImplicit false

namespace Rollup

namespace Schema
variable {schema : Schema}

def Refers (schema : Schema) (name other : String) : Prop := other ∈ schema.references name

abbrev Connects (schema : Schema) : String → String → Prop := Relation.TransGen schema.Refers

def Acyclic (schema : Schema) : Prop := ∀ name, ¬schema.Connects name name

theorem mem_references {name other : String} :
    other ∈ schema.references name ↔ ∃ column, schema.derived? name = some column ∧
      other ∈ column.expr.columns ∧ other ∈ schema.derivedNames := by
  rw [references]
  split <;> simp_all

theorem references_subset (name : String) : schema.references name ⊆ schema.derivedNames :=
  fun _ member => (mem_references.mp member).elim fun _ found => found.2.2

/-! ## Gathering -/

/-- With a step for every name, all pending names are gathered, and so is all that they lead to. -/
theorem closed_gather (schema : Schema) {steps : Nat} {remaining : List String}
    (pending : List String) (enough : remaining.length ≤ steps) :
    (∀ name ∈ pending, name ∈ remaining → name ∈ schema.gather steps remaining pending) ∧
      ∀ name ∈ schema.gather steps remaining pending, ∀ other ∈ schema.references name,
        other ∈ remaining → other ∈ schema.gather steps remaining pending := by
  induction steps generalizing remaining pending with
  | zero =>
    obtain rfl := List.eq_nil_of_length_eq_zero (Nat.le_zero.mp enough)
    simp [gather]
  | succ steps ih =>
    rw [gather]
    cases taken : pending.find? remaining.contains with
    | none =>
      have none_left := List.find?_eq_none.mp taken
      constructor
      · intro name listed left
        exact absurd (List.contains_iff_mem.mpr left) (none_left name listed)
      · intro name gathered
        cases gathered
    | some first =>
      have among : first ∈ remaining := List.contains_iff_mem.mp (List.find?_some taken)
      have fewer : (remaining.erase first).length ≤ steps := by
        rw [List.length_erase_of_mem among]
        omega
      obtain ⟨takes, closed⟩ := ih (schema.references first ++ pending) fewer
      -- A name that is left is the one taken now, or it is left for the steps to come.
      have step : ∀ name, (name ∈ schema.references first ++ pending ∨
            ∃ from_ ∈ schema.gather steps (remaining.erase first)
              (schema.references first ++ pending), name ∈ schema.references from_) →
          name ∈ remaining → name ∈ first :: schema.gather steps (remaining.erase first)
            (schema.references first ++ pending) := by
        intro name origin left
        by_cases same : name = first
        · exact same ▸ List.mem_cons_self
        · have left := (List.mem_erase_of_ne same).mpr left
          rcases origin with listed | ⟨from_, gathered, refers⟩
          · exact List.mem_cons_of_mem _ (takes name listed left)
          · exact List.mem_cons_of_mem _ (closed from_ gathered name refers left)
      constructor
      · intro name listed
        exact step name (.inl (List.mem_append_right _ listed))
      · intro name gathered other refers
        rcases List.mem_cons.mp gathered with rfl | gathered
        · exact step other (.inl (List.mem_append_left _ refers))
        · exact step other (.inr ⟨name, gathered, refers⟩)

theorem connected_of_mem_gather {steps : Nat} {remaining pending : List String} {name : String}
    (gathered : name ∈ schema.gather steps remaining pending) :
    ∃ first ∈ pending, Relation.ReflTransGen schema.Refers first name := by
  induction steps generalizing remaining pending with
  | zero => cases gathered
  | succ steps ih =>
    rw [gather] at gathered
    split at gathered
    case h_1 => cases gathered
    case h_2 first taken =>
      have listed := List.mem_of_find?_eq_some taken
      rcases List.mem_cons.mp gathered with rfl | gathered
      · exact ⟨name, listed, .refl⟩
      · obtain ⟨next, among, leads⟩ := ih gathered
        rcases List.mem_append.mp among with refers | among
        · exact ⟨first, listed, .head refers leads⟩
        · exact ⟨next, among, leads⟩

/-- A derived column leads to just the ones that references connect it with. -/
theorem leadsTo_iff {first last : String} :
    schema.leadsTo first last = true ↔ schema.Connects first last := by
  rw [leadsTo, List.contains_iff_mem, reachable]
  constructor
  · intro gathered
    obtain ⟨next, refers, leads⟩ := connected_of_mem_gather gathered
    exact .head' refers leads
  · intro connects
    have enough : schema.derivedNames.length ≤ schema.derived.length := by simp [derivedNames]
    obtain ⟨takes, closed⟩ := schema.closed_gather (schema.references first) enough
    induction connects with
    | single refers => exact takes _ refers (references_subset _ refers)
    | tail _ refers ih => exact closed _ ih _ refers (references_subset _ refers)

/-! ## Validation -/

theorem mem_derivedNames_of_derived? {name : String} {column : DerivedColumn}
    (found : schema.derived? name = some column) : name ∈ schema.derivedNames := by
  have same : column.name = name := by simpa using List.find?_some found
  exact same ▸ List.mem_map_of_mem (List.mem_of_find?_eq_some found)

theorem mem_cycles {cycle : List String} :
    cycle ∈ schema.cycles ↔ ∃ name ∈ schema.derivedNames, schema.cycleOf? name = some cycle := by
  rw [cycles, List.mem_mergeSort, mem_firstSeen, List.mem_filterMap]

theorem acyclic_of_cycles (none : schema.cycles = []) : schema.Acyclic := by
  intro name connects
  obtain ⟨next, refers, -⟩ := Relation.TransGen.head'_iff.mp connects
  obtain ⟨column, found, -⟩ := mem_references.mp refers
  have listed : _ ∈ schema.cycles := mem_cycles.mpr ⟨name, mem_derivedNames_of_derived? found, by
    rw [cycleOf?, if_pos (leadsTo_iff.mpr connects)]⟩
  rw [none] at listed
  cases listed

theorem acyclic_of_validate {registry : Registry} (valid : schema.validate registry = .ok ()) :
    schema.Acyclic := by
  rw [validate] at valid
  split at valid
  · cases valid
  · split at valid
    · rename_i none
      exact acyclic_of_cycles none
    · cases valid

end Schema

end Rollup
