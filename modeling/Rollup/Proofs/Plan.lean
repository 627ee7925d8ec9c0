import Mathlib.Data.List.Nodup
import Rollup.Compiler

/-! Fields by name, and the stages below the last one.

Where the fields of a stage have different names, each is found by its own. Sorting and cutting off
the rows of the last stage changes nothing else.
-/

set_option autoImplicit false

namespace Rollup

namespace Stage

def expr? (stage : Stage) (name : String) : Option Sql.Expr := (stage.field? name).map (·.expr)

theorem mem_of_expr? {stage : Stage} {name : String} {e : Sql.Expr}
    (found : stage.expr? name = some e) : ⟨name, e⟩ ∈ stage.fields := by
  obtain ⟨field, listed, rfl⟩ := Option.map_eq_some_iff.mp found
  have same : field.name = name := by simpa using List.find?_some listed
  exact same ▸ List.mem_of_find?_eq_some listed

theorem expr?_of_mem {stage : Stage} {name : String} {e : Sql.Expr} (distinct : stage.names.Nodup)
    (member : ⟨name, e⟩ ∈ stage.fields) : stage.expr? name = some e := by
  cases found : stage.expr? name with
  | none =>
    have absent := List.find?_eq_none.mp (Option.map_eq_none_iff.mp found) _ member
    simp at absent
  | some x =>
    have same := List.inj_on_of_nodup_map distinct (mem_of_expr? found) member rfl
    exact congrArg (some ·.expr) same

end Stage

namespace Plan

/-- The stages below the last one, the nearest first. -/
def inner (plan : Plan) : List Stage := plan.stages.dropLast.reverse

end Plan

theorem Compiler.mem_finish {orderBy : List (Sql.SortKey Sql.Expr)} {rows : Option Sql.RowWindow}
    {stages : List Stage} {stage : Stage} (member : stage ∈ finish orderBy rows stages) :
    ∃ origin ∈ stages, stage = origin ∨ stage = { origin with orderBy, rows } := by
  fun_induction finish orderBy rows stages with
  | case1 => cases member
  | case2 last => exact ⟨last, List.mem_cons_self, .inr (List.mem_singleton.mp member)⟩
  | case3 first next rest ih =>
    rcases List.mem_cons.mp member with rfl | member
    · exact ⟨stage, List.mem_cons_self, .inl rfl⟩
    · obtain ⟨origin, listed, finished⟩ := ih member
      exact ⟨origin, List.mem_cons_of_mem _ listed, finished⟩

end Rollup
