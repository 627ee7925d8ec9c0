import Mathlib.Data.List.Nodup
import Rollup.Group.Output
import Rollup.Proofs.Group.Aggregation

/-! Group keys, outputs and their names.

Keys are dimensions of the schema, outputs refer to keys and aggregates only, and no two columns of
the result have the same name.
-/

set_option autoImplicit false

namespace Rollup

/-! ## Keys -/

def AllDimensions (schema : Schema) (keys : List GroupKey) : Prop :=
  ∀ key ∈ keys, ∃ dimension, schema.column? key.column = some (.dimension dimension)

theorem allDimensions_addUnless {schema : Schema} {keys : List GroupKey} {name : String}
    {dimension : Dimension} (found : schema.column? name = some (.dimension dimension))
    (before : AllDimensions schema keys) :
    AllDimensions schema
      (if (keyOf? keys name).isSome then keys else keys ++ [⟨name, name⟩]) := by
  split
  · exact before
  · intro key member
    rcases List.mem_append.mp member with member | member
    · exact before key member
    · obtain rfl := List.mem_singleton.mp member
      exact ⟨dimension, found⟩

theorem allDimensions_addKey {schema : Schema} {keys keys' : List GroupKey} {name : String}
    (ok : addKey schema keys name = .ok keys') (before : AllDimensions schema keys) :
    AllDimensions schema keys' := by
  unfold addKey at ok
  split at ok
  · rename_i dimension found
    cases ok
    exact allDimensions_addUnless found before
  · cases ok
  · cases ok

theorem allDimensions_explicit {schema : Schema} {names : List String} {keys keys' : List GroupKey}
    (ok : names.foldlM (addKey schema) keys = .ok keys') (before : AllDimensions schema keys) :
    AllDimensions schema keys' :=
  foldlM_invariant (fun _ _ _ => allDimensions_addKey) ok before

theorem allDimensions_bare {schema : Schema} {selected : List (String × String)}
    {keys : List GroupKey}
    (dimensions : ∀ entry ∈ selected,
      ∃ dimension, schema.column? entry.1 = some (.dimension dimension))
    (before : AllDimensions schema keys) :
    AllDimensions schema (selected.foldl
      (fun keys (column, _) =>
        if (keyOf? keys column).isSome then keys else keys ++ [⟨column, column⟩]) keys) := by
  induction selected generalizing keys with
  | nil => exact before
  | cons entry rest ih =>
    obtain ⟨dimension, found⟩ := dimensions entry List.mem_cons_self
    exact ih (fun entry member => dimensions entry (List.mem_cons_of_mem _ member))
      (allDimensions_addUnless found before)

theorem namedBy_column (selected : List (String × String)) (key : GroupKey) :
    (namedBy selected key).column = key.column := by
  unfold namedBy
  split <;> rfl

theorem dimension_of_selectedDimension? {schema : Schema} {selected : Selected} {name : String}
    (found : selectedDimension? schema selected = some name) :
    ∃ dimension, schema.column? name = some (.dimension dimension) := by
  unfold selectedDimension? at found
  split at found
  · split at found
    · rename_i dimension listed
      cases found
      exact ⟨dimension, listed⟩
    · cases found
  · cases found

theorem allDimensions_groupKeys {schema : Schema} {groupBy : List String}
    {selected : List Selected} {keys : List GroupKey}
    (ok : groupKeys schema groupBy selected = .ok keys) : AllDimensions schema keys := by
  -- Explicit keys come first, then those that are selected only; naming them keeps their columns.
  simp only [groupKeys, bind_eq_ok, pure_eq_ok] at ok
  obtain ⟨explicit, ok, rfl⟩ := ok
  intro key member
  obtain ⟨origin, listed, rfl⟩ := List.mem_map.mp member
  rw [namedBy_column]
  refine allDimensions_bare (fun entry member => ?_)
    (allDimensions_explicit ok fun key member => absurd member List.not_mem_nil) origin listed
  obtain ⟨s, -, found⟩ := List.mem_filterMap.mp member
  obtain ⟨name, selects, rfl⟩ := Option.map_eq_some_iff.mp found
  exact dimension_of_selectedDimension? selects

/-! ## Outputs -/

/-- Outputs refer to keys and aggregates only, and their kind says what they are. -/
structure Output.IsLifted (keys : List GroupKey) (output : Output) : Prop where
  refers : ∀ target ∈ output.expr.references,
    (∃ index, target = .key index) ∨ ∃ index, target = .aggregate index
  kind : output.kind = outputKind keys output.name output.expr

theorem Output.isKey_of_aggregate {output : Output} {index : Nat}
    (is : output.kind = .aggregate index) : output.isKey = false := by
  rw [isKey, is]

theorem Output.isKey_of_computed {output : Output} (is : output.kind = .computed) :
    output.isKey = false := by
  rw [isKey, is]

theorem keyReference_eq_ok {keys : List GroupKey} {e : Expr} {column : String} {x : GroupExpr} :
    keyReference keys e column = .ok x ↔
      ∃ index, keyOf? keys column = some index ∧ x = .reference (.key index) := by
  unfold keyReference
  split
  · rename_i index found
    simp [found, eq_comm]
  · rename_i absent
    simp [absent]

theorem isLifted_liftOutput {registry : Registry} {keys : List GroupKey} {selected : Selected}
    {P : String → Prop} {output : Output} {calls calls' : List AggregateCall}
    (ok : (liftOutput registry keys selected).run calls = .ok (output, calls'))
    (reads : ∀ name ∈ selected.expr.columns, P name) (before : ReadOnly P calls) :
    ReadOnly P calls' ∧ output.IsLifted keys ∧ output.name = selected.name := by
  simp only [liftOutput, run_bind_eq_ok, run_pure_eq_ok] at ok
  obtain ⟨x, last, ok, rfl, rfl⟩ := ok
  obtain ⟨after, lifts⟩ := lifts_lift ok reads before
  refine ⟨after, ⟨fun target member => ?_, rfl⟩, rfl⟩
  obtain ⟨node, -, -, y, leaf, member⟩ := lifts.references member
  cases leaf with
  | column found =>
    obtain ⟨index, -, rfl⟩ := keyReference_eq_ok.mp found
    exact .inl ⟨index, List.mem_singleton.mp member⟩
  | aggregate name args index => exact .inr ⟨index, List.mem_singleton.mp member⟩

namespace Output.IsLifted
variable {keys : List GroupKey} {output : Output}

theorem isPlain (lifted : output.IsLifted keys) : output.expr.isPlain := fun index member => by
  rcases lifted.refers _ member with ⟨_, is⟩ | ⟨_, is⟩ <;> cases is

theorem expr_of_aggregate (lifted : output.IsLifted keys) {index : Nat}
    (is : output.kind = .aggregate index) : output.expr = .reference (.aggregate index) := by
  rw [lifted.kind] at is
  unfold outputKind at is
  split at is
  · rename_i other same
    cases is
    exact same
  · split at is <;> cases is
  · split at is <;> cases is

theorem hasAggregate_of_computed (lifted : output.IsLifted keys)
    (is : output.kind = .computed) : output.expr.hasAggregate = true := by
  rw [lifted.kind] at is
  unfold outputKind at is
  split at is
  · cases is
  · split at is <;> cases is
  · split at is
    · assumption
    · cases is

theorem isCompound_of_computed (lifted : output.IsLifted keys)
    (is : output.kind = .computed) : output.expr.isCompound = true := by
  -- A reference or a literal has another kind, so only compound expressions are left.
  have aggregate := lifted.hasAggregate_of_computed is
  cases same : output.expr with
  | reference target =>
    rw [same] at aggregate
    rw [lifted.kind, same] at is
    have refers := lifted.refers target (by simp [same])
    rcases refers with ⟨index, rfl⟩ | ⟨index, rfl⟩
    · cases aggregate
    · cases is
  | literal value =>
    rw [same] at aggregate
    cases aggregate
  | _ => rfl

theorem kind_of_aggregate (lifted : output.IsLifted keys) {index : Nat}
    (member : .aggregate index ∈ output.expr.references) :
    output.kind = .computed ∨ output.kind = .aggregate index := by
  rw [lifted.kind]
  unfold outputKind
  split
  · rename_i same
    rw [same] at member
    cases List.mem_singleton.mp member
    exact .inr rfl
  · rename_i same
    rw [same] at member
    cases List.mem_singleton.mp member
  · refine .inl (if_pos ?_)
    exact List.any_eq_true.mpr ⟨_, member, rfl⟩

theorem of_key (lifted : output.IsLifted keys) {index : Nat} (is : output.kind = .key index) :
    output.expr = .reference (.key index) ∧
      ∃ key, keys[index]? = some key ∧ key.name = output.name := by
  rw [lifted.kind] at is
  unfold outputKind at is
  split at is
  · cases is
  · rename_i other same
    split at is
    · rename_i named
      cases is
      obtain ⟨key, found, named⟩ := (Option.any_eq_true _ _).mp named
      exact ⟨same, key, found, beq_iff_eq.mp named⟩
    · cases is
  · split at is <;> cases is

end Output.IsLifted

/-! ## Names -/

theorem distinctNames_eq_ok {seen names result : List String}
    (ok : distinctNames seen names = .ok result) :
    result = seen ++ names ∧ (seen.Nodup → result.Nodup) := by
  -- Every name is added to those before it, so these are generalized.
  induction names generalizing seen with
  | nil =>
    cases ok
    exact ⟨(List.append_nil _).symm, id⟩
  | cons name rest ih =>
    rw [distinctNames] at ok
    split at ok
    · cases ok
    · rename_i absent
      obtain ⟨rfl, distinct⟩ := ih ok
      refine ⟨List.append_assoc _ _ _, fun start => distinct ?_⟩
      refine List.nodup_append.mpr ⟨start, List.nodup_singleton _, ?_⟩
      rintro a before b same rfl
      obtain rfl := List.mem_singleton.mp same
      exact absent (List.contains_iff_mem.mpr before)

theorem outputNames_eq_ok {keys : List GroupKey} {outputs : List Output} {bucketed : Bool}
    {names : List String} (ok : outputNames keys outputs bucketed = .ok names) :
    names = (if bucketed then [bucketName] else []) ++
        (keys.map (·.name) ++ (outputs.filter (!·.isKey)).map (·.name)) ∧
      names.Nodup := by
  obtain ⟨same, distinct⟩ := distinctNames_eq_ok ok
  refine ⟨same, distinct ?_⟩
  split
  · exact List.nodup_singleton _
  · exact List.nodup_nil

end Rollup
