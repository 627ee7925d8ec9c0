import Rollup.Proofs.Sql.Minus
import Rollup.Proofs.Staging.Legal

/-! The statement of a plan.

A plan whose first stage reads the table and whose other stages read the ones before them has a
statement, and its clauses say what the stages say. That is what the text of an accepted query
spells.
-/

set_option autoImplicit false

namespace Rollup

namespace Plan

theorem exprs_body (stage : Stage) : stage.body.exprs = stage.exprs := by
  have item : ∀ field, (Stage.itemOf field).expr = field.expr := by
    intro field
    unfold Stage.itemOf
    split
    · split <;> rfl
    · rfl
  simp [Sql.Select.exprs, Stage.exprs, Stage.body, item]

theorem exprs_nest {stages : List Stage} (above : ∀ stage ∈ stages, stage.source = .previous)
    (inner : Sql.Query) (aliases : Nat) : ∃ query, nest (some inner) aliases stages = some query ∧
      ∀ e, e ∈ query.exprs ↔ e ∈ inner.exprs ∨ ∃ stage ∈ stages, e ∈ stage.exprs := by
  induction stages generalizing inner aliases with
  | nil => exact ⟨inner, rfl, by simp⟩
  | cons stage rest ih =>
    obtain ⟨source, others⟩ := List.forall_mem_cons.mp above
    obtain ⟨query, nested, written⟩ := ih others
      (.ofQuery stage.body inner s!"tbl{aliases + 1}") (aliases + 1)
    refine ⟨query, ?_, fun e => ?_⟩
    · unfold nest
      rw [source]
      exact nested
    · rw [written, Sql.Query.exprs, exprs_body, List.mem_append, List.exists_mem_cons_iff,
        or_comm (a := e ∈ stage.exprs), or_assoc]

/-- The first stage reads a table, and each of the others the one before it. -/
def IsStack (table : String) : List Stage → Prop
  | [] => False
  | first :: rest => first.source = .table table ∧ ∀ stage ∈ rest, stage.source = .previous

theorem IsStack.query? {table : String} {plan : Plan} (stack : IsStack table plan.stages) :
    ∃ query, plan.query? = some query ∧
      ∀ e, e ∈ query.exprs ↔ ∃ stage ∈ plan.stages, e ∈ stage.exprs := by
  obtain ⟨stages⟩ := plan
  cases stages with
  | nil => exact stack.elim
  | cons first rest =>
    obtain ⟨source, above⟩ := stack
    obtain ⟨query, nested, written⟩ := exprs_nest above (.ofTable first.body table none) 0
    refine ⟨query, ?_, fun e => ?_⟩
    · rw [Plan.query?]
      unfold nest
      rw [source]
      exact nested
    · rw [written, List.exists_mem_cons_iff, Sql.Query.exprs, exprs_body]

end Plan

theorem StageBuilder.Built.isStack {b : StageBuilder} {layout : Layout} {stages : List Stage}
    (built : b.Built layout stages) : Plan.IsStack b.table stages := by
  cases built with
  | flat groups _ => exact ⟨groups.source, List.forall_mem_nil _⟩
  | computed groups _ computes =>
    exact ⟨groups.source, List.forall_mem_singleton.mpr computes.source⟩
  | windowed windows groups _ =>
    exact ⟨windows.source, List.forall_mem_singleton.mpr groups.source⟩
  | windowedComputed windows groups _ computes =>
    exact ⟨windows.source, List.forall_mem_cons.mpr
      ⟨groups.source, List.forall_mem_singleton.mpr computes.source⟩⟩

namespace Compiler

variable {c : Compiler} {query : Query}

theorem isStack_finish {orderBy : List (Sql.SortKey Sql.Expr)} {rows : Option Sql.RowWindow}
    {table : String} {stages : List Stage} (stack : Plan.IsStack table stages) :
    Plan.IsStack table (finish orderBy rows stages) := by
  match stages, stack with
  | [_], stack => exact stack
  | first :: next :: rest, ⟨source, above⟩ =>
    refine ⟨source, fun stage member => ?_⟩
    obtain ⟨origin, listed, rfl | rfl⟩ := mem_finish member
    · exact above stage listed
    · exact above origin listed

theorem isStack_plan {plan : Plan} (ok : c.plan query = .ok plan) :
    Plan.IsStack c.schema.table plan.stages := by
  obtain ⟨seconds, a, carried, stages, orderBy, accepts⟩ := accepts_of_plan ok
  obtain ⟨-, -, built⟩ := StageBuilder.built_build accepts.built
  rw [accepts.plan]
  exact isStack_finish built.isStack

theorem plan_of_compile {pretty : Bool} {compiled : CompiledQuery}
    (ok : c.compile query pretty = .ok compiled) :
    c.plan query = .ok compiled.plan ∧ compiled.sql = compiled.plan.toSql c.dialect pretty := by
  obtain ⟨⟨plan, columns⟩, planned, rfl⟩ := bind_pure_eq_ok.mp ok
  exact ⟨bind_pure_eq_ok.mpr ⟨_, planned, rfl⟩, rfl⟩

/-- The text of an accepted query is that of a statement, and nothing is written in it that is not
written in a stage. -/
theorem statement_of_compile {pretty : Bool} {compiled : CompiledQuery}
    (ok : c.compile query pretty = .ok compiled) :
    ∃ statement, compiled.plan.query? = some statement ∧
      compiled.sql = (if pretty then statement.pretty c.dialect else statement.compact c.dialect) ∧
      ∀ e, e ∈ statement.exprs ↔ ∃ stage ∈ compiled.plan.stages, e ∈ stage.exprs := by
  obtain ⟨planned, sql⟩ := plan_of_compile ok
  obtain ⟨statement, found, written⟩ := (isStack_plan planned).query?
  refine ⟨statement, found, ?_, written⟩
  rw [sql, Plan.toSql, found]

end Compiler

theorem Sql.Query.any_exprs_iff {statement : Sql.Query} {stages : List Stage}
    (written : ∀ e, e ∈ statement.exprs ↔ ∃ stage ∈ stages, e ∈ stage.exprs)
    (p : Sql.Expr → Bool) :
    statement.exprs.any p = true ↔ ∃ stage ∈ stages, ∃ e ∈ stage.exprs, p e = true := by
  rw [List.any_eq_true]
  constructor
  · rintro ⟨e, member, holds⟩
    obtain ⟨stage, listed, read⟩ := (written e).mp member
    exact ⟨stage, listed, e, read, holds⟩
  · rintro ⟨stage, listed, e, read, holds⟩
    exact ⟨e, (written e).mpr ⟨stage, listed, read⟩, holds⟩

end Rollup
