import Rollup.FirstSeen
import Rollup.Proofs.Group.Output

/-! Which keys the groups have, and what they are called.

The keys are the dimensions to group by and those that are selected on their own, each where it is
first named. A key has the name of the first selector that selects it, or else its own. A selector
is a key just where it selects a dimension under the name of its key; all other selectors are
columns of their own.
-/

set_option autoImplicit false

namespace Rollup

/-- The dimensions to group by, then those that are only selected, without repetitions. -/
def groupDimensions (schema : Schema) (groupBy : List String) (selected : List Selected) :
    List String :=
  firstSeen (groupBy ++ selected.filterMap (selectedDimension? schema))

/-- The name of a dimension in the result. -/
def dimensionName (schema : Schema) (selected : List Selected) (dimension : String) : String :=
  ((selected.find? (selectedDimension? schema · == some dimension)).map (·.name)).getD dimension

/-- Whether a selector selects a dimension under the name that it has in the result. -/
def isGroupColumn (schema : Schema) (selected : List Selected) (s : Selected) : Bool :=
  (selectedDimension? schema s).any fun dimension =>
    dimensionName schema selected dimension == s.name

/-! ## Keys -/

def ownKey (dimension : String) : GroupKey := ⟨dimension, dimension⟩

theorem isSome_keyOf? (dimensions : List String) (name : String) :
    (keyOf? (dimensions.map ownKey) name).isSome = dimensions.contains name := by
  rw [keyOf?, List.findIdx?_isSome, List.any_map, List.contains_eq_any_beq]
  congr 1
  funext dimension
  exact Bool.beq_comm

theorem addUnless_ownKey (dimensions : List String) (name : String) :
    (if (keyOf? (dimensions.map ownKey) name).isSome then dimensions.map ownKey
      else dimensions.map ownKey ++ [⟨name, name⟩]) = (addNew dimensions name).map ownKey := by
  rw [isSome_keyOf?, addNew]
  split
  · rfl
  · rw [List.map_append]
    rfl

theorem addKey_ownKey {schema : Schema} {dimensions : List String} {name : String}
    {keys : List GroupKey} (ok : addKey schema (dimensions.map ownKey) name = .ok keys) :
    keys = (addNew dimensions name).map ownKey := by
  unfold addKey at ok
  split at ok
  · cases ok
    exact addUnless_ownKey dimensions name
  · cases ok
  · cases ok

theorem explicit_ownKey {schema : Schema} {names dimensions : List String} {keys : List GroupKey}
    (ok : names.foldlM (addKey schema) (dimensions.map ownKey) = .ok keys) :
    keys = (names.foldl addNew dimensions).map ownKey := by
  induction names generalizing dimensions with
  | nil =>
    rw [List.foldlM_nil, pure_eq_ok] at ok
    exact ok.symm
  | cons name rest ih =>
    rw [List.foldlM_cons, bind_eq_ok] at ok
    obtain ⟨next, added, ok⟩ := ok
    rw [addKey_ownKey added] at ok
    exact ih ok

theorem bare_ownKey (selected : List (String × String)) (dimensions : List String) :
    selected.foldl
      (fun keys (column, _) =>
        if (keyOf? keys column).isSome then keys else keys ++ [⟨column, column⟩])
      (dimensions.map ownKey) = ((selected.map (·.1)).foldl addNew dimensions).map ownKey := by
  induction selected generalizing dimensions with
  | nil => rfl
  | cons entry rest ih =>
    obtain ⟨column, name⟩ := entry
    rw [List.foldl_cons, List.map_cons, List.foldl_cons, ← ih]
    dsimp only
    rw [addUnless_ownKey]

theorem namedBy_ownKey (schema : Schema) (selected : List Selected) (dimension : String) :
    namedBy (selected.filterMap fun s =>
        (selectedDimension? schema s).map fun name => (name, s.name)) (ownKey dimension) =
      ⟨dimension, dimensionName schema selected dimension⟩ := by
  -- The first entry for a dimension is that of the first selector that selects it.
  have test : ∀ s : Selected, ((selectedDimension? schema s).map fun name => (name, s.name)).any
      (fun entry => entry.1 == (ownKey dimension).column) =
        (selectedDimension? schema s == some dimension) := by
    intro s
    cases selectedDimension? schema s <;> rfl
  rw [namedBy, List.find?_filterMap, dimensionName]
  simp only [test]
  cases found : selected.find? (selectedDimension? schema · == some dimension) with
  | none => rfl
  | some s =>
    have selects : selectedDimension? schema s = some dimension := by
      simpa using List.find?_some found
    simp only [Option.bind_some, selects]
    rfl

/-- The keys of the groups are the dimensions of the query under their names in the result. -/
theorem groupKeys_eq {schema : Schema} {groupBy : List String} {selected : List Selected}
    {keys : List GroupKey} (ok : groupKeys schema groupBy selected = .ok keys) :
    keys = (groupDimensions schema groupBy selected).map fun dimension =>
      ⟨dimension, dimensionName schema selected dimension⟩ := by
  simp only [groupKeys, bind_eq_ok, pure_eq_ok] at ok
  obtain ⟨explicit, ok, rfl⟩ := ok
  have start : ([] : List GroupKey) = ([] : List String).map ownKey := rfl
  have columns : (selected.filterMap fun s =>
      (selectedDimension? schema s).map fun name => (name, s.name)).map (·.1) =
        selected.filterMap (selectedDimension? schema) := by
    rw [List.map_filterMap]
    congr 1
    funext s
    cases selectedDimension? schema s <;> rfl
  rw [start] at ok
  rw [explicit_ownKey ok, bare_ownKey, columns, ← List.foldl_append, List.map_map]
  exact List.map_congr_left fun dimension _ => namedBy_ownKey schema selected dimension

/-! ## Selectors that are keys -/

theorem name_mem_columns {schema : Schema} {selected : List Selected} {s : Selected}
    (groupBy : List String) (member : s ∈ selected) :
    s.name ∈ (groupDimensions schema groupBy selected).map (dimensionName schema selected) ++
      (selected.filter (!isGroupColumn schema selected ·)).map (·.name) := by
  cases group : isGroupColumn schema selected s with
  | true =>
    obtain ⟨dimension, selects, named⟩ := (Option.any_eq_true _ _).mp group
    have listed : dimension ∈ groupDimensions schema groupBy selected :=
      mem_firstSeen.mpr (List.mem_append_right _ (List.mem_filterMap.mpr ⟨s, member, selects⟩))
    exact List.mem_append_left _ (List.mem_map.mpr ⟨dimension, listed, beq_iff_eq.mp named⟩)
  | false =>
    have kept : s ∈ selected.filter (!isGroupColumn schema selected ·) :=
      List.mem_filter.mpr ⟨member, by simp [group]⟩
    exact List.mem_append_right _ (List.mem_map_of_mem kept)

theorem key_of_keyOf? {keys : List GroupKey} {column : String} {index : Nat}
    (found : keyOf? keys column = some index) :
    ∃ key, keys[index]? = some key ∧ key.column = column := by
  obtain ⟨bound, is, -⟩ := List.findIdx?_eq_some_iff_getElem.mp found
  exact ⟨keys[index], List.getElem?_eq_getElem bound, by simpa using is⟩

theorem key_of_lifts {schema : Schema} {registry : Registry} {keys : List GroupKey} {whole : Expr}
    {s : Selected} {x : GroupExpr} (dimensions : AllDimensions schema keys)
    (lifts : Lifts registry (LiftedLeaf (keyReference keys whole)) s.expr x) :
    (∃ index key, x = .reference (.key index) ∧ keys[index]? = some key ∧
        selectedDimension? schema s = some key.column) ∨
      (∀ index, x ≠ .reference (.key index)) ∧ selectedDimension? schema s = none := by
  cases is : s.expr with
  | column column =>
    rw [is] at lifts
    cases lifts with
    | leaf _ leaf =>
      cases leaf with
      | column found =>
        obtain ⟨index, place, rfl⟩ := keyReference_eq_ok.mp found
        obtain ⟨key, there, rfl⟩ := key_of_keyOf? place
        obtain ⟨dimension, stored⟩ := dimensions key (List.mem_of_getElem? there)
        refine .inl ⟨index, key, rfl, there, ?_⟩
        rw [selectedDimension?, is]
        simp only [stored]
  | _ =>
    -- Everything else is lifted to an aggregate or to an expression of its own shape.
    refine .inr ⟨?_, by rw [selectedDimension?, is]⟩
    rintro index rfl
    rw [is] at lifts
    cases lifts with
    | leaf leafy leaf => cases leaf

/-- The name of a key decides whether an output is this key. -/
theorem isKey_reference {keys : List GroupKey} {index : Nat} {key : GroupKey} (name : String)
    (found : keys[index]? = some key) :
    Output.isKey ⟨name, .reference (.key index), outputKind keys name (.reference (.key index))⟩ =
      (key.name == name) := by
  simp only [Output.isKey, outputKind, found, Option.any_some]
  cases key.name == name <;> rfl

theorem isKey_liftOutput {schema : Schema} {registry : Registry} {groupBy : List String}
    {selected : List Selected} {keys : List GroupKey} {s : Selected} {output : Output}
    {calls calls' : List AggregateCall} (grouped : groupKeys schema groupBy selected = .ok keys)
    (ok : (liftOutput registry keys s).run calls = .ok (output, calls')) :
    output.isKey = isGroupColumn schema selected s := by
  obtain ⟨-, lifted, -⟩ :=
    isLifted_liftOutput (P := fun _ => True) ok (fun _ _ => trivial) fun _ _ _ _ => trivial
  simp only [liftOutput, run_bind_eq_ok, run_pure_eq_ok] at ok
  obtain ⟨x, last, ok, rfl, rfl⟩ := ok
  obtain ⟨-, lifts⟩ :=
    lifts_lift (P := fun _ => True) ok (fun _ _ => trivial) fun _ _ _ _ => trivial
  rw [isGroupColumn]
  rcases key_of_lifts (allDimensions_groupKeys grouped) lifts with
    ⟨index, key, rfl, found, selects⟩ | ⟨other, selects⟩
  · -- A key has the name of its dimension in the result, so the two tests of names are one.
    have listed := List.mem_of_getElem? found
    rw [groupKeys_eq grouped] at listed
    obtain ⟨dimension, -, rfl⟩ := List.mem_map.mp listed
    rw [selects, Option.any_some, isKey_reference s.name found]
  · rw [selects, Option.any_none]
    refine Bool.eq_false_iff.mpr fun key => ?_
    unfold Output.isKey at key
    split at key
    · rename_i index is
      exact other index (lifted.of_key is).1
    · cases key

end Rollup
