import Rollup.Proofs.Compiler
import Rollup.Proofs.Group.Call
import Rollup.Proofs.Sql.Grouping

/-! What the expressions of an accepted query call.

Outside of aggregates and in their arguments only scalar functions are called. None of the known
scalar functions has the name of an aggregate of a database, so no call that a user writes outside
of an aggregate is taken for one by the database.
-/

set_option autoImplicit false

namespace Rollup

/-- The functions that are called by what the stages write as expressions. -/
structure StageBuilder.Calls (b : StageBuilder) (Callable : String → Prop) : Prop where
  slots : ∀ slot ∈ b.renderer.slots, ∀ arg, slot.call.arg = some arg →
    ∀ name ∈ arg.calls, Callable name
  outputs : ∀ output ∈ b.renderer.outputs, ∀ name ∈ output.expr.calls, Callable name
  shared : ∀ part ∈ b.renderer.shared, ∀ name ∈ part.expr.calls, Callable name
  conditions : ∀ condition ∈ b.conditions, ∀ name ∈ condition.expr.calls, Callable name

theorem StageBuilder.Calls.imp {b : StageBuilder} {Callable Callable' : String → Prop}
    (calls : b.Calls Callable) (each : ∀ name, Callable name → Callable' name) :
    b.Calls Callable' where
  slots slot member arg given name called :=
    each name (calls.slots slot member arg given name called)
  outputs output member name called := each name (calls.outputs output member name called)
  shared part member name called := each name (calls.shared part member name called)
  conditions condition member name called :=
    each name (calls.conditions condition member name called)

namespace Compiler
variable {c : Compiler} {query : Query} {seconds : Option Int}

theorem mayCall_select {resolver : Resolver} {Callable : String → Prop}
    {onColumn : String → Except CompileError GroupExpr} {selector : Selector} {selected : Selected}
    (scalar : ∀ name, resolver.registry.IsScalar name → Callable name)
    (default : ∀ column metric, resolver.schema.metric? column = some metric →
      resolver.registry.isAggregate metric.aggregator.name = false →
        (∃ x, onColumn column = .ok x) → Callable metric.aggregator.name)
    (ok : select resolver selector = .ok selected) :
    selected.expr.MayCall resolver.registry onColumn Callable := by
  obtain ⟨-, e, resolved, same⟩ := select_eq_ok ok
  rw [same]
  exact Resolver.mayCall_aggregateMetrics scalar default (Resolver.isFlat_resolve resolved)

section
variable {Callable : String → Prop} (scalar : ∀ name, c.registry.IsScalar name → Callable name)
  (default : ∀ column metric dimension, c.schema.metric? column = some metric →
    c.schema.column? column = some (.dimension dimension) →
      c.registry.isAggregate metric.aggregator.name = false → Callable metric.aggregator.name)
include scalar default

theorem called_selection {s : Selection}
    (ok : c.selection query ⟨c.schema, c.registry, seconds⟩ = .ok s) :
    ArgsCall Callable s.calls ∧ ∀ output ∈ s.outputs, output.expr.CallsOnly Callable := by
  simp only [selection, bind_eq_ok, pure_eq_ok] at ok
  obtain ⟨selected, selects, keys, grouped, ⟨outputs, calls⟩, lifted, names, -, rfl⟩ := ok
  -- A metric that is replaced is a key, and so the name of a dimension besides.
  have replaced : ∀ (e : Expr) (column : String) (metric : Metric),
      c.schema.metric? column = some metric →
        c.registry.isAggregate metric.aggregator.name = false →
          (∃ x, keyReference keys e column = .ok x) → Callable metric.aggregator.name := by
    rintro e column metric found unknown ⟨x, placed⟩
    obtain ⟨index, place, -⟩ := keyReference_eq_ok.mp placed
    obtain ⟨bound, same, -⟩ := List.findIdx?_eq_some_iff_getElem.mp place
    obtain ⟨dimension, listed⟩ := allDimensions_groupKeys grouped _ (List.getElem_mem bound)
    exact default column metric dimension found (beq_iff_eq.mp same ▸ listed) unknown
  obtain ⟨args, each⟩ := (mapM_run_eq_ok.mp lifted).invariant
    (I := ArgsCall Callable) (G := fun _ output => output.expr.CallsOnly Callable)
    (fun one member output calls calls' ok before => by
      obtain ⟨selector, -, selecting⟩ := related_of_mem_right (mapM_eq_ok.mp selects) member
      exact called_liftOutput ok (mayCall_select scalar (replaced one.expr) selecting) before)
    (fun call member => absurd member List.not_mem_nil)
  refine ⟨args, fun output member => ?_⟩
  obtain ⟨-, -, calls⟩ := related_of_mem_right each member
  exact calls

theorem called_analyze {a : Analysis}
    (ok : c.analyze query ⟨c.schema, c.registry, seconds⟩ = .ok a) :
    ArgsCall Callable a.calls ∧ (∀ output ∈ a.outputs, output.expr.CallsOnly Callable) ∧
      ∀ condition ∈ a.conditions, condition.expr.CallsOnly Callable := by
  obtain ⟨s, selects, keys, outputs, names, tests⟩ := analyze_eq_ok ok
  obtain ⟨args, calls⟩ := called_selection scalar default selects
  -- The conditions add their aggregates to those of the outputs.
  obtain ⟨after, each⟩ := (runs_conditions tests).invariant
    (I := ArgsCall Callable) (G := fun _ condition => condition.expr.CallsOnly Callable)
    (fun conjunct member condition _ _ ok before =>
      FilterScope.called_liftCondition scalar calls ok before) args
  refine ⟨after, outputs ▸ calls, fun condition member => ?_⟩
  obtain ⟨-, -, calls⟩ := related_of_mem_right each member
  exact calls

/-- A builder calls scalar functions only, and aggregates that are not known in the place of metrics
that are dimensions besides. -/
theorem Prepares.calls_of {a : Analysis} {carried : List String}
    (prepares : c.Prepares query seconds a carried) :
    (c.builder query seconds a carried).Calls Callable := by
  obtain ⟨args, outputs, conditions⟩ := called_analyze scalar default prepares.analyzed
  have plain : ∀ output ∈ a.outputs, output.expr.isPlain :=
    fun output member => (prepares.analysis.outputs output member).isPlain
  constructor
  · intro slot member
    exact args slot.call (prepares.call_mem member)
  · intro output member name called
    obtain ⟨original, listed, from_⟩ :=
      related_of_mem_right (sharing_of_sound prepares.analysis).each member
    exact outputs original listed name (from_.calls called)
  · intro part member name called
    obtain ⟨origin, listed, same⟩ := prepares.shared_found member
    unfold sharing at listed
    split at listed
    · obtain ⟨output, among, subset⟩ := calls_of_isShared (added_shareExprs plain listed).1
      exact outputs output among name (subset (same ▸ called))
    · cases listed
  · exact conditions

end

theorem Prepares.calls_builder {a : Analysis} {carried : List String}
    (prepares : c.Prepares query seconds a carried)
    (known : ∀ func : Aggregate, c.registry.isAggregate func.name) :
    (c.builder query seconds a carried).Calls c.registry.IsScalar :=
  prepares.calls_of (fun _ => id) fun _ metric _ _ _ unknown =>
    nomatch (known metric.aggregator).symm.trans unknown

end Compiler

/-! ## The known functions -/

theorem not_isAggregateName_of_isScalar {name : String} (scalar : Registry.builtin.IsScalar name) :
    Sql.isAggregateName name = false := by
  obtain ⟨spec, found, kind⟩ := Option.map_eq_some_iff.mp scalar
  have listed := List.mem_of_find?_eq_some found
  have same : Text.asciiLower spec.name = Text.asciiLower name := by
    simpa [Text.sameWord] using List.find?_some found
  have each : ∀ spec ∈ Registry.builtin.specs, spec.kind = .scalar →
      Sql.isAggregateName spec.name = false := by decide
  simpa only [Sql.isAggregateName, Text.sameWord, same] using each spec listed kind

end Rollup
