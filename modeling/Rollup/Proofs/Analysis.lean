import Rollup.Compiler
import Rollup.Proofs.Group.Condition
import Rollup.Proofs.Group.Target

/-! What is known of an analyzed query.

Its keys are dimensions, its aggregates read stored columns, its outputs refer to keys and
aggregates, each of its conditions tests a conjunct of the filter, and the columns of its result
have different names. Whatever outputs and conditions refer to is there, and each aggregate is there
because one of them refers to it.
-/

set_option autoImplicit false

namespace Rollup

def Query.conjuncts (query : Query) : List Expr :=
  match query.filter with
  | none => []
  | some filter => filter.conjuncts

namespace Compiler

/-- The keys, outputs and aggregates that a query selects, and the names of its columns. -/
structure Selection where
  keys : List GroupKey
  outputs : List Output
  calls : List AggregateCall
  names : List String

/-- The part of the analysis that is before the filter. -/
def selection (c : Compiler) (query : Query) (resolver : Resolver) :
    Except CompileError Selection := do
  let selected ← query.selectors.mapM (select resolver)
  let keys ← groupKeys c.schema query.groupBy selected
  let (outputs, calls) ← (selected.mapM (liftOutput c.registry keys)).run []
  let names ← outputNames keys outputs (isBucketed query)
  return ⟨keys, outputs, calls, names⟩

def filterScope (c : Compiler) (seconds : Option Int) (keys : List GroupKey)
    (outputs : List Output) : FilterScope :=
  ⟨⟨c.schema, c.registry, seconds⟩, keys, outputs⟩

end Compiler

structure Compiler.Selection.Sound (schema : Schema) (bucketed : Bool) (s : Selection) : Prop where
  dimensions : AllDimensions schema s.keys
  outputs : ∀ output ∈ s.outputs, output.IsLifted s.keys
  reads : ReadOnly (schema.isStored · = true) s.calls
  names : s.names = (if bucketed then [bucketName] else []) ++
    (s.keys.map (·.name) ++ (s.outputs.filter (!·.isKey)).map (·.name))
  distinct : s.names.Nodup

structure Analysis.Sound (c : Compiler) (query : Query) (seconds : Option Int) (a : Analysis) :
    Prop where
  dimensions : AllDimensions c.schema a.keys
  outputs : ∀ output ∈ a.outputs, output.IsLifted a.keys
  reads : ReadOnly (c.schema.isStored · = true) a.calls
  conditions : List.Forall₂ (c.filterScope seconds a.keys a.outputs).Tests query.conjuncts
    a.conditions
  names : a.names = (if Compiler.isBucketed query then [bucketName] else []) ++
    (a.keys.map (·.name) ++ (a.outputs.filter (!·.isKey)).map (·.name))
  distinct : a.names.Nodup

/-- The outputs that are selected refer to what there is, and the aggregates are there for them. -/
structure Compiler.Selection.Gathered (P : AggregateCall → Prop) (s : Selection) : Prop where
  collected : Collected P [] (s.outputs.flatMap (·.expr.references)) s.calls
  within : ∀ output ∈ s.outputs, output.expr.IsWithin (extentOf s.keys.length 0 s.calls)

structure Analysis.Gathered (P : AggregateCall → Prop) (a : Analysis) : Prop where
  calls : ∀ call ∈ a.calls, P call
  outputs : ∀ output ∈ a.outputs, output.expr.IsWithin (extentOf a.keys.length 0 a.calls)
  conditions : ∀ condition ∈ a.conditions,
    condition.expr.IsWithin (extentOf a.keys.length a.outputs.length a.calls)
  used : ∀ index < a.calls.length,
    (∃ output ∈ a.outputs, .aggregate index ∈ output.expr.references) ∨
      ∃ condition ∈ a.conditions, .aggregate index ∈ condition.expr.references

namespace Compiler
variable {c : Compiler} {query : Query} {seconds : Option Int}

theorem select_eq_ok {resolver : Resolver} {selector : Selector} {s : Selected}
    (ok : select resolver selector = .ok s) :
    selector.outputName? = some s.name ∧
      ∃ e, resolver.resolve selector.expr = .ok e ∧ s.expr = resolver.aggregateMetrics e := by
  unfold select at ok
  split at ok
  · cases ok
  · rename_i name given
    simp only [bind_eq_ok, pure_eq_ok] at ok
    obtain ⟨e, resolved, rfl⟩ := ok
    exact ⟨given, e, resolved, rfl⟩

theorem columns_select {resolver : Resolver} {selector : Selector} {selected : Selected}
    (ok : select resolver selector = .ok selected) {name : String}
    (member : name ∈ selected.expr.columns) : resolver.schema.isStored name = true := by
  obtain ⟨-, e, resolved, same⟩ := select_eq_ok ok
  rw [same] at member
  exact Resolver.isStored_resolve resolved (Resolver.columns_aggregateMetrics resolver member)

theorem sound_selection {s : Selection}
    (ok : c.selection query ⟨c.schema, c.registry, seconds⟩ = .ok s) :
    s.Sound c.schema (isBucketed query) := by
  simp only [selection, bind_eq_ok, pure_eq_ok] at ok
  obtain ⟨selected, selects, keys, grouped, ⟨outputs, calls⟩, lifted, names, named, rfl⟩ := ok
  have stored : ∀ one ∈ selected, ∀ name ∈ one.expr.columns, c.schema.isStored name = true := by
    intro one member name
    obtain ⟨selector, -, ok⟩ := related_of_mem_right (mapM_eq_ok.mp selects) member
    exact columns_select ok
  -- That aggregates read stored columns only is kept while outputs add theirs, one after another.
  obtain ⟨reads, each⟩ := (mapM_run_eq_ok.mp lifted).invariant
    (I := ReadOnly (c.schema.isStored · = true)) (G := fun _ output => output.IsLifted keys)
    (fun one member output calls calls' ok before =>
      (isLifted_liftOutput ok (stored one member) before).imp_right And.left)
    (fun call member => absurd member List.not_mem_nil)
  obtain ⟨same, distinct⟩ := outputNames_eq_ok named
  refine ⟨allDimensions_groupKeys grouped, fun output member => ?_, reads, same, distinct⟩
  obtain ⟨-, -, is⟩ := related_of_mem_right each member
  exact is

theorem analyze_eq_ok {a : Analysis}
    (ok : c.analyze query ⟨c.schema, c.registry, seconds⟩ = .ok a) :
    ∃ s, c.selection query ⟨c.schema, c.registry, seconds⟩ = .ok s ∧
      a.keys = s.keys ∧ a.outputs = s.outputs ∧ a.names = s.names ∧
      ((c.filterScope seconds s.keys s.outputs).conditions query.filter).run s.calls =
        .ok (a.conditions, a.calls) := by
  simp only [analyze, bind_eq_ok, pure_eq_ok] at ok
  obtain ⟨selected, selects, keys, grouped, ⟨outputs, calls⟩, lifted, names, named,
    ⟨conditions, calls'⟩, tests, rfl⟩ := ok
  refine ⟨⟨keys, outputs, calls, names⟩, ?_, rfl, rfl, rfl, tests⟩
  simp only [selection, bind_eq_ok, pure_eq_ok]
  exact ⟨selected, selects, keys, grouped, ⟨outputs, calls⟩, lifted, names, named, rfl⟩

theorem selector_of_output {a : Analysis}
    (ok : c.analyze query ⟨c.schema, c.registry, seconds⟩ = .ok a) {output : Output}
    (member : output ∈ a.outputs) :
    ∃ selector ∈ query.selectors, selector.outputName? = some output.name := by
  obtain ⟨s, ok, -, outputs, -, -⟩ := analyze_eq_ok ok
  simp only [selection, bind_eq_ok, pure_eq_ok] at ok
  obtain ⟨selected, selects, keys, -, ⟨lifted, calls⟩, lifts, names, -, rfl⟩ := ok
  have listed : output ∈ lifted := by
    rw [outputs] at member
    exact member
  obtain ⟨-, each⟩ := (mapM_run_eq_ok.mp lifts).invariant (I := fun _ => True)
    (G := fun (one : Selected) (output : Output) => output.name = one.name)
    (fun one _ output calls calls' ok _ => by
      simp only [liftOutput, run_bind_eq_ok, run_pure_eq_ok] at ok
      obtain ⟨x, last, -, rfl, -⟩ := ok
      exact ⟨trivial, rfl⟩) trivial
  obtain ⟨one, among, same⟩ := related_of_mem_right each listed
  obtain ⟨selector, chosen, ok⟩ := related_of_mem_right (mapM_eq_ok.mp selects) among
  exact ⟨selector, chosen, same ▸ (select_eq_ok ok).1⟩

theorem runs_conditions {scope : FilterScope} {conditions : List Condition}
    {calls calls' : List AggregateCall}
    (ok : (scope.conditions query.filter).run calls = .ok (conditions, calls')) :
    Runs (fun conjunct u condition v =>
      (scope.liftCondition conjunct).run u = .ok (condition, v)) query.conjuncts calls conditions
        calls' := by
  unfold Query.conjuncts
  cases filter : query.filter with
  | none =>
    rw [filter, FilterScope.conditions, run_pure_eq_ok] at ok
    obtain ⟨rfl, rfl⟩ := ok
    exact .nil calls
  | some e =>
    rw [filter, FilterScope.conditions, mapM_run_eq_ok] at ok
    exact ok

theorem sound_analyze {a : Analysis}
    (ok : c.analyze query ⟨c.schema, c.registry, seconds⟩ = .ok a) : a.Sound c query seconds := by
  obtain ⟨s, selects, keys, outputs, names, tests⟩ := analyze_eq_ok ok
  have sound := sound_selection selects
  rw [← keys, ← outputs] at tests
  -- The conditions add their aggregates to those of the outputs.
  obtain ⟨reads, each⟩ := (runs_conditions tests).invariant
    (I := ReadOnly (c.schema.isStored · = true))
    (G := (c.filterScope seconds a.keys a.outputs).Tests)
    (fun conjunct member condition calls calls' ok before =>
      FilterScope.tests_liftCondition (fun output member => by
        rw [keys]
        exact sound.outputs output (outputs ▸ member)) (fun name => id) ok before)
    sound.reads
  exact ⟨keys ▸ sound.dimensions, keys ▸ outputs ▸ sound.outputs, reads, each,
    keys ▸ outputs ▸ names ▸ sound.names, names ▸ sound.distinct⟩

/-! ## Aggregates and what refers to them -/

theorem gathered_selection {P : AggregateCall → Prop} {resolver : Resolver} {s : Selection}
    (each : ∀ selector one, select resolver selector = .ok one → ∀ name args func,
      .call name args ∈ one.expr.nodes → c.registry.aggregate? name = some func →
        P ⟨func, args.head?⟩)
    (ok : c.selection query resolver = .ok s) : s.Gathered P := by
  simp only [selection, bind_eq_ok, pure_eq_ok] at ok
  obtain ⟨selected, selects, keys, -, ⟨outputs, calls⟩, lifted, names, -, rfl⟩ := ok
  have gathers : GathersEach P keys.length 0 [] (outputs.map (·.expr)) calls :=
    gathersEach_of_runs (·.expr) (mapM_run_eq_ok.mp lifted) (Nat.zero_le _)
      fun one member output u v _ ok => by
        obtain ⟨selector, -, chosen⟩ := related_of_mem_right (mapM_eq_ok.mp selects) member
        exact gathers_liftOutput (each selector one chosen) ok
  refine ⟨?_, fun output member => gathers.within _ (List.mem_map_of_mem member)⟩
  rw [← List.flatMap_map]
  exact gathers.collected

/-- The conditions are lifted when the aggregates of the outputs are collected. -/
theorem gathersEach_analyze {P : AggregateCall → Prop} {a : Analysis} {s : Selection}
    (gathered : s.Gathered P)
    (each : (c.filterScope seconds s.keys s.outputs).Calls P)
    (tests : ((c.filterScope seconds s.keys s.outputs).conditions query.filter).run s.calls =
      .ok (a.conditions, a.calls)) :
    GathersEach P s.keys.length s.outputs.length s.calls (a.conditions.map (·.expr)) a.calls :=
  have reaches : (c.filterScope seconds s.keys s.outputs).Reaches s.calls.length := gathered.within
  gathersEach_of_runs (·.expr) (runs_conditions tests) (Nat.le_refl _)
    fun _ _ _ _ _ early ok => FilterScope.gathers_liftCondition each reaches early ok

theorem gathered_analyze {P : AggregateCall → Prop} {a : Analysis}
    (selectors : ∀ selector one, select ⟨c.schema, c.registry, seconds⟩ selector = .ok one →
      ∀ name args func, .call name args ∈ one.expr.nodes →
        c.registry.aggregate? name = some func → P ⟨func, args.head?⟩)
    (resolved : ∀ e x, Resolver.resolve ⟨c.schema, c.registry, seconds⟩ e = .ok x →
      ∀ name args func, .call name args ∈ x.nodes →
        c.registry.aggregate? name = some func → P ⟨func, args.head?⟩)
    (ok : c.analyze query ⟨c.schema, c.registry, seconds⟩ = .ok a) : a.Gathered P := by
  obtain ⟨s, selects, keys, outputs, -, tests⟩ := analyze_eq_ok ok
  have gathered := gathered_selection selectors selects
  have conditions := gathersEach_analyze gathered resolved tests
  have none : ∀ call ∈ ([] : List AggregateCall), P call := fun _ member =>
    absurd member List.not_mem_nil
  refine ⟨conditions.collected.all (gathered.collected.all none), fun output member => ?_,
    fun condition member => ?_, fun index below => ?_⟩
  · rw [outputs] at member
    rw [keys]
    exact (gathered.within output member).mono (extentOf_le conditions.collected.length_le)
  · rw [keys, outputs]
    exact conditions.within _ (List.mem_map_of_mem member)
  · by_cases early : index < s.calls.length
    · refine .inl ?_
      rw [outputs]
      exact List.mem_flatMap.mp (gathered.collected.used index (Nat.zero_le _) early)
    · refine .inr ?_
      have refers := conditions.collected.used index (Nat.not_lt.mp early) below
      rw [List.flatMap_map] at refers
      exact List.mem_flatMap.mp refers

end Compiler

end Rollup
