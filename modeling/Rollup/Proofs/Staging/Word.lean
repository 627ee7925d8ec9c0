import Rollup.Proofs.Sql.Word
import Rollup.Proofs.Staging.Throughout

/-! The words that are written into stages.

Beside the functions that a query calls, a builder names those of the database, for aggregates,
window functions and times. So its stages keep to every vocabulary that has both.
-/

set_option autoImplicit false

namespace Rollup

variable {v : Sql.Vocabulary}

namespace Renderer
variable {r : Renderer}

theorem congruent_keepsTo (v : Sql.Vocabulary) :
    CongruentFor v.function fun written _ => written.KeepsTo v where
  literal value := by cases value <;> exact Sql.Expr.keepsTo_literal _
  combine {left _ right _} op l r := by
    rcases combine_eq op left right with ⟨op', same⟩ | ⟨negated, same⟩ | ⟨negated, same⟩ <;>
      rw [same]
    · exact Sql.Expr.keepsTo_binary.mpr ⟨l, r⟩
    · exact Sql.Expr.keepsTo_isNull.mpr l
    · exact Sql.Expr.keepsTo_isNull.mpr r
  unary op operand := Sql.Expr.keepsTo_unary.mpr operand
  inList negated operand items := by
    refine Sql.Expr.keepsTo_inList.mpr ⟨operand, fun item listed => ?_⟩
    obtain ⟨_, -, each⟩ := related_of_mem_left items listed
    exact each
  apply name known args := by
    refine Sql.Expr.keepsTo_apply known fun arg listed => ?_
    obtain ⟨_, -, each⟩ := related_of_mem_left args listed
    exact each

theorem keepsTo_rowExpr {e : Expr} {written : Sql.Expr} (ok : rowExpr e = .ok written)
    (calls : ∀ name ∈ e.calls, v.function name) : written.KeepsTo v :=
  rowExpr_related (congruent_keepsTo v) ok calls fun name _ => Sql.Expr.keepsTo_column none name

variable {call : AggregateCall} {e : Sql.Expr}
  (common : ∀ name ∈ Sql.commonFunctions, v.function name)
  (calls : ∀ arg, call.arg = some arg → ∀ name ∈ arg.calls, v.function name)
include common calls

theorem keepsTo_aggregate (dialect : r.dialect.KeepsTo v) (ok : r.aggregate call = .ok e) :
    e.KeepsTo v := by
  unfold aggregate at ok
  split at ok
  · rename_i arg given
    obtain ⟨value, written, ok⟩ := bind_eq_ok.mp ok
    have value := keepsTo_rowExpr written (calls arg given)
    have time : (Sql.Expr.named r.timeColumn).KeepsTo v := Sql.Expr.keepsTo_column none _
    cases func : call.func <;> simp only [aggregateOf, func] at ok
    case sum | count | avg | min | max =>
      cases ok
      exact Sql.keepsTo_single (common _ (by decide)) value
    case cardinality =>
      cases ok
      exact dialect.countDistinct value
    case groupConcat => exact dialect.join (capability_eq_ok.mp ok) value
    case rate =>
      split at ok
      · cases ok
        exact Sql.Expr.keepsTo_binary.mpr
          ⟨Sql.keepsTo_single (common _ (by decide)) value, Sql.Expr.keepsTo_literal _⟩
      · cases ok
    case first | last => exact dialect.pick (capability_eq_ok.mp ok) value time
  · split at ok
    · cases ok
      exact Sql.keepsTo_single (common _ (by decide)) (Sql.Expr.keepsTo_star none)
    · cases ok

theorem keepsTo_windowCall {partitionBy : List Sql.Expr}
    (parts : ∀ part ∈ partitionBy, part.KeepsTo v) (ok : r.windowCall call partitionBy = .ok e) :
    e.KeepsTo v := by
  unfold windowCall at ok
  split at ok
  · rename_i arg given
    obtain ⟨value, written, rfl⟩ := bind_pure_eq_ok.mp ok
    have picked : (Sql.Expr.apply "first_value" [value]).KeepsTo v :=
      Sql.keepsTo_single (common _ (by decide)) (keepsTo_rowExpr written (calls arg given))
    refine Sql.Expr.keepsTo_window.mpr ⟨picked, parts, List.forall_mem_singleton.mpr ?_⟩
    exact Sql.Expr.keepsTo_column none _
  · cases ok

end Renderer

theorem StageBuilder.keeps_vocabulary {b : StageBuilder}
    {database : Sql.Database} (same : b.renderer.dialect = database.dialect)
    (covers : v.Covers database) (calls : b.Calls v.function) :
    b.Keeps v.function (Sql.Expr.KeepsTo v) :=
  have dialect : b.renderer.dialect.KeepsTo v := same ▸ Sql.keepsTo_dialect covers
  { congruent := Renderer.congruent_keepsTo v
    named := Sql.Expr.keepsTo_column none
    aggregate := fun slot member _ ok =>
      Renderer.keepsTo_aggregate covers.common (calls.slots slot member) dialect ok
    window := fun slot member _ parts _ ok =>
      Renderer.keepsTo_windowCall covers.common (calls.slots slot member) parts ok
    bucket := by
      intro e start
      rcases bucketStart?_eq_ok start with
        ⟨-, absent⟩ | ⟨-, time, step, floor, -, -, floored, same⟩
      · cases absent
      · cases same
        exact dialect.timeFloor floored (Sql.Expr.keepsTo_column none _)
    time := by
      intro e member
      unfold timeConditions at member
      split at member
      · cases member
      · have bound : ∀ (op : Sql.BinaryOp) (column : String) (t : Instant),
            (Sql.Expr.binary op (.named column) (b.renderer.dialect.timestamp t)).KeepsTo v :=
          fun op column t => Sql.Expr.keepsTo_binary.mpr
            ⟨Sql.Expr.keepsTo_column none column, dialect.timestamp t⟩
        simp only [List.mem_cons, List.not_mem_nil, or_false] at member
        rcases member with rfl | rfl <;> exact bound _ _ _ }

end Rollup
