import Rollup.Proofs.Sql.Chain
import Rollup.Proofs.Staging.Statement
import Rollup.Proofs.Staging.Word

/-! Where the statement of an accepted query has tests in a row.

A test on the right of a comparison is in parentheses, and so is one that is asked for a member or
for null. One on the left of a comparison is not, so it needs none in a query either: the statement
of a filter that compares the result of a comparison is one that not every database reads.
-/

set_option autoImplicit false

namespace Rollup

namespace Compiler
variable {c : Compiler} {query : Query}

theorem callsWindows_plan {database : Sql.Database} {plan : Plan}
    (dialect : c.dialect = database.dialect) (ok : c.plan query = .ok plan) :
    ∀ stage ∈ plan.stages, ∀ e ∈ stage.exprs, e.CallsWindows := by
  obtain ⟨seconds, a, carried, stages, orderBy, accepts⟩ := accepts_of_plan ok
  have calls : (c.builder query seconds a carried).Calls fun _ => True :=
    ⟨fun _ _ _ _ _ _ => trivial, fun _ _ _ _ => trivial, fun _ _ _ _ => trivial,
      fun _ _ _ _ => trivial⟩
  have covers : Sql.Vocabulary.Covers ⟨fun _ => True, fun _ => True⟩ database :=
    ⟨fun _ _ => trivial, fun _ _ => trivial⟩
  exact accepts.keeps calls (StageBuilder.keeps_vocabulary dialect covers calls)

/-- A statement has two tests in a row just where a comparison in one of its stages has a test on
its left. -/
theorem chains_compile {database : Sql.Database} {pretty : Bool} {compiled : CompiledQuery}
    (dialect : c.dialect = database.dialect) (ok : c.compile query pretty = .ok compiled) :
    ∃ statement, compiled.plan.query? = some statement ∧
      compiled.sql = (if pretty then statement.pretty c.dialect else statement.compact c.dialect) ∧
      (Sql.chains statement.tokens = true ↔
        ∃ stage ∈ compiled.plan.stages, ∃ e ∈ stage.exprs, e.chainsTests = true) := by
  obtain ⟨planned, -⟩ := plan_of_compile ok
  obtain ⟨statement, found, text, written⟩ := statement_of_compile ok
  have windows : ∀ e ∈ statement.exprs, e.CallsWindows := by
    intro e member
    obtain ⟨stage, listed, read⟩ := (written e).mp member
    exact callsWindows_plan dialect planned stage listed e read
  refine ⟨statement, found, text, ?_⟩
  rw [Sql.chains_tokens statement windows]
  exact Sql.Query.any_exprs_iff written (·.chainsTests)

theorem chains_risingLoad : ∃ compiled, hosts.compile .risingLoad true = .ok compiled ∧
    ∃ statement, compiled.plan.query? = some statement ∧
      compiled.sql = statement.pretty hosts.dialect ∧
      (Sql.chains statement.tokens = true ↔
        ∃ stage ∈ compiled.plan.stages, ∃ e ∈ stage.exprs, e.chainsTests = true) := by
  obtain ⟨compiled, ok⟩ := compile_risingLoad
  have dialect : hosts.dialect = Sql.Database.postgres.dialect := rfl
  exact ⟨compiled, ok, chains_compile dialect ok⟩

end Compiler

/-! ## The result of a comparison, compared -/

def Expr.comparedTest : Expr :=
  .binary .eq (.binary .eq (.column "host") (.literal (.string "a"))) (.literal (.bool true))

def Query.comparedTest : Query where
  selectors := [⟨.call "sum" [.column "cpu"], some "load"⟩]
  filter := some .comparedTest

/-- The filter is accepted, and so is the query; but in its statement the comparisons stand in a
row. -/
theorem Compiler.chains_comparedTest :
    (Expr.parse "(host = 'a') = true").toOption.any (· == .comparedTest) = true ∧
      (hosts.compile .comparedTest false).toOption.map (·.sql) =
        some "SELECT sum(\"cpu\") AS \"load\" FROM \"metrics\" WHERE \"host\" = 'a' = true" ∧
      (hosts.compile .comparedTest false).toOption.map
        (fun compiled => compiled.plan.query?.map fun statement => Sql.chains statement.tokens) =
          some (some true) := by
  refine ⟨by decide +kernel, by decide +kernel, by decide +kernel⟩

end Rollup
