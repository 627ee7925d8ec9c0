import Rollup.Proofs.Sql.Unquoted
import Rollup.Proofs.Staging.Statement
import Rollup.Proofs.Staging.Word

/-! Which texts reach the statement of an accepted query outside of quotes.

Names and strings are quoted, so what is left of a query are the functions that it calls. These are
known, whichever part of the query or of a derived column calls them. Only the aggregates that
metrics are put into are not looked up: they are called without being known where a metric and a
dimension share a name, which makes the metric a key of the groups.
-/

set_option autoImplicit false

namespace Rollup

namespace Compiler

/-- Whether a compiler calls an aggregate that it does not know: that of a metric with the name of a
dimension. -/
def IsAssumed (c : Compiler) (name : String) : Prop :=
  ∃ column metric dimension, c.schema.metric? column = some metric ∧
    c.schema.column? column = some (.dimension dimension) ∧
      name = metric.aggregator.name ∧ c.registry.get? name = none

/-- The functions that statements may call by the names that queries call them by. -/
def IsCallable (c : Compiler) (name : String) : Prop :=
  (c.registry.get? name).isSome = true ∨ c.IsAssumed name

variable {c : Compiler} {query : Query}

theorem isCallable_of_isScalar {name : String} (scalar : c.registry.IsScalar name) :
    c.IsCallable name := by
  obtain ⟨spec, found, -⟩ := Option.map_eq_some_iff.mp scalar
  exact .inl (Option.isSome_of_eq_some found)

theorem isCallable_aggregator {column : String} {metric : Metric} {dimension : Dimension}
    (found : c.schema.metric? column = some metric)
    (listed : c.schema.column? column = some (.dimension dimension)) :
    c.IsCallable metric.aggregator.name := by
  cases known : c.registry.get? metric.aggregator.name with
  | none => exact .inr ⟨column, metric, dimension, found, listed, rfl, known⟩
  | some spec => exact .inl (Option.isSome_of_eq_some known)

theorem Prepares.calls_callable {seconds : Option Int} {a : Analysis} {carried : List String}
    (prepares : c.Prepares query seconds a carried) :
    (c.builder query seconds a carried).Calls c.IsCallable :=
  prepares.calls_of (fun _ => isCallable_of_isScalar) fun _ _ _ found listed _ =>
    isCallable_aggregator found listed

theorem keepsTo_plan {database : Sql.Database} {plan : Plan}
    (dialect : c.dialect = database.dialect) (ok : c.plan query = .ok plan) :
    ∀ stage ∈ plan.stages, ∀ e ∈ stage.exprs, e.KeepsTo (database.vocabulary c.IsCallable) := by
  obtain ⟨seconds, a, carried, stages, orderBy, accepts⟩ := accepts_of_plan ok
  have calls : (c.builder query seconds a carried).Calls
      (database.vocabulary c.IsCallable).function :=
    accepts.calls_callable.imp fun name => .inl
  exact accepts.keeps calls
    (StageBuilder.keeps_vocabulary dialect (database.covers_vocabulary c.IsCallable) calls)

/-- An accepted query has a statement, which its text spells. All that this statement does not quote
are numbers, fixed texts and names of functions: of those that the registry or the database knows,
and of the aggregates that are assumed. -/
theorem unquoted_compile {database : Sql.Database} {pretty : Bool} {compiled : CompiledQuery}
    (dialect : c.dialect = database.dialect) (ok : c.compile query pretty = .ok compiled) :
    ∃ statement, compiled.plan.query? = some statement ∧
      compiled.sql =
        (if pretty then statement.pretty c.dialect else statement.compact c.dialect) ∧
      ∀ token ∈ statement.tokens, token.IsPermitted database c.IsCallable := by
  obtain ⟨planned, -⟩ := plan_of_compile ok
  obtain ⟨statement, found, text, written⟩ := statement_of_compile ok
  have keeps : ∀ e ∈ statement.exprs, e.KeepsTo (database.vocabulary c.IsCallable) := by
    intro e member
    obtain ⟨stage, listed, read⟩ := (written e).mp member
    exact keepsTo_plan dialect planned stage listed e read
  exact ⟨statement, found, text, fun token member =>
    Sql.Token.isPermitted_of_isIn (Sql.Query.allIn_tokensAt keeps 0 token member)⟩

theorem unquoted_risingLoad : ∃ compiled, hosts.compile .risingLoad true = .ok compiled ∧
    ∃ statement, compiled.plan.query? = some statement ∧
      compiled.sql = statement.pretty hosts.dialect ∧
      ∀ token ∈ statement.tokens, token.IsPermitted .postgres hosts.IsCallable := by
  obtain ⟨compiled, ok⟩ := compile_risingLoad
  have dialect : hosts.dialect = Sql.Database.postgres.dialect := rfl
  exact ⟨compiled, ok, unquoted_compile dialect ok⟩

/-! ## A metric with the name of a dimension -/

/-- Hosts to group by and to count, without known functions. -/
def namesakes : Compiler where
  schema := { name := "hosts", table := "metrics", dimensions := [⟨"host", .string⟩],
              metrics := [⟨"host", .int, .cardinality⟩] }
  dialect := Sql.Database.postgres.dialect
  registry := .empty

end Compiler

def Query.countedHosts : Query where
  selectors := [⟨.column "host", some "hosts"⟩]
  groupBy := ["host"]

/-- A function is called that neither the registry nor the database knows. -/
theorem Compiler.unquoted_countedHosts :
    (namesakes.compile .countedHosts false).toOption.map (·.sql) =
        some ("SELECT \"host\", cardinality(\"host\") AS \"hosts\" FROM \"metrics\" " ++
          "GROUP BY \"host\"") ∧
      ∃ plan statement, namesakes.plan .countedHosts = .ok plan ∧
        plan.query? = some statement ∧ .function "cardinality" ∈ statement.tokens ∧
          ¬ (Sql.Token.function "cardinality").IsPermitted .postgres
            fun name => (namesakes.registry.get? name).isSome = true := by
  refine ⟨by decide +kernel, ?_⟩
  have accepted : (namesakes.plan .countedHosts).toOption.any (fun plan =>
      plan.query?.any fun statement => statement.tokens.contains (.function "cardinality")) =
        true := by decide +kernel
  obtain ⟨plan, ok, spelled⟩ := any_toOption.mp accepted
  obtain ⟨statement, written, spelled⟩ := (Option.any_eq_true _ _).mp spelled
  refine ⟨plan, statement, ok, written, List.contains_iff_mem.mp spelled, ?_⟩
  rintro (known | known)
  · cases known
  · exact absurd known (show "cardinality" ∉ Sql.Database.postgres.functions by decide)

end Rollup
