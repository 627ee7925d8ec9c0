import Rollup.Compiler
import Rollup.Proofs.Sql.Dialect
import Rollup.Proofs.Staging.Rendering

/-! Aggregates read their columns.

An aggregate is made of the columns that its argument names and, if it picks by time, of the column
of time. A window function also reads what rows agree on.
-/

set_option autoImplicit false

namespace Rollup.Renderer

variable {r : Renderer}

def pickTime (r : Renderer) (call : AggregateCall) : List Sql.Expr :=
  if call.func.picksByTime then [.named r.timeColumn] else []

theorem capability_eq_ok {call : AggregateCall} {value : Option Sql.Expr} {e : Sql.Expr} :
    r.capability call value = .ok e ↔ value = some e := by
  cases value <;> simp [capability]

theorem over_aggregateOf (regular : r.dialect.Regular) {call : AggregateCall} {value e : Sql.Expr}
    (ok : r.aggregateOf call value = .ok e) : e.Over (value :: r.pickTime call) := by
  have member : ∀ {parts : List Sql.Expr}, value ∈ value :: parts := List.mem_cons_self
  have mono : ∀ {x : Sql.Expr}, x.Over [value] → x.Over (value :: r.pickTime call) := by
    intro x made
    refine ⟨fun column read => ?_, fun f fixed => made.kept f fun part listed => ?_,
      made.compound⟩
    · rw [List.flatMap_cons]
      exact List.mem_append_left _ (by simpa using made.columns read)
    · obtain rfl := List.mem_singleton.mp listed
      exact fixed part member
  unfold aggregateOf at ok
  split at ok
  · cases ok
    exact mono Sql.over_apply
  · cases ok
    exact mono Sql.over_apply
  · cases ok
    exact mono Sql.over_apply
  · cases ok
    exact mono Sql.over_apply
  · cases ok
    exact mono Sql.over_apply
  · cases ok
    exact mono (regular.countDistinct value)
  · exact mono (regular.join (capability_eq_ok.mp ok))
  · -- A rate is a sum divided by the seconds of a bucket.
    split at ok
    · cases ok
      have sum : (Sql.Expr.apply "sum" [value]).Over [value] := Sql.over_apply
      refine mono (sum.trans ⟨?_, fun f fixed => ?_, rfl⟩)
      · simp [Sql.perSecond, Sql.Expr.columns]
      · have same := fixed _ List.mem_cons_self
        simp [Sql.perSecond, Sql.Expr.substitute?, same]
    · cases ok
  · rename_i first
    rw [pickTime, first]
    exact regular.pick (capability_eq_ok.mp ok)
  · rename_i last
    rw [pickTime, last]
    exact regular.pick (capability_eq_ok.mp ok)

/-- An aggregate in a stage of groups is made of the columns that it reads. -/
theorem over_aggregate (regular : r.dialect.Regular) {slot : AggregateSlot} {e : Sql.Expr}
    (ok : r.aggregate slot.call = .ok e) :
    e.Over ((Compiler.slotColumns r.timeColumn slot).map .named) := by
  have parts : ((Compiler.slotColumns r.timeColumn slot).map Sql.Expr.named).flatMap
      Sql.Expr.columns = Compiler.slotColumns r.timeColumn slot := by
    simp [List.flatMap_map, List.flatMap_singleton']
  unfold aggregate at ok
  split at ok
  · rename_i arg given
    obtain ⟨value, written, ok⟩ := bind_eq_ok.mp ok
    have made := over_aggregateOf regular ok
    have reads : ∀ column ∈ arg.columns, column ∈ Compiler.slotColumns r.timeColumn slot := by
      intro column member
      refine List.mem_append_left _ ?_
      rw [AggregateCall.columns, given]
      exact member
    have time : ∀ part ∈ r.pickTime slot.call,
        part ∈ (Compiler.slotColumns r.timeColumn slot).map Sql.Expr.named := by
      intro part member
      unfold pickTime at member
      split at member
      · rename_i picks
        obtain rfl := List.mem_singleton.mp member
        refine List.mem_map_of_mem (List.mem_append_right _ ?_)
        rw [if_pos picks]
        exact List.mem_cons_self
      · cases member
    refine ⟨fun column read => ?_, fun f fixed => made.kept f fun part listed => ?_,
      made.compound⟩
    · rw [parts]
      have member := made.columns read
      rw [List.flatMap_cons] at member
      rcases List.mem_append.mp member with member | member
      · exact reads column (columns_rowExpr written member)
      · obtain ⟨part, listed, member⟩ := List.mem_flatMap.mp member
        rw [← parts]
        exact List.mem_flatMap.mpr ⟨part, time part listed, member⟩
    · rcases List.mem_cons.mp listed with rfl | listed
      · exact (replaced_rowExpr written fun column member =>
          fixed _ (List.mem_map_of_mem (reads column member))).1
      · exact fixed part (time part listed)
  · -- Without an argument all rows are counted, which reads no column.
    split at ok
    · cases ok
      exact ⟨by simp [Sql.Expr.columns], fun f _ => rfl, rfl⟩
    · cases ok

theorem window_of_windowCall {call : AggregateCall} {partitionBy : List Sql.Expr} {e : Sql.Expr}
    (ok : r.windowCall call partitionBy = .ok e) :
    ∃ picked orderBy, e = .window picked partitionBy orderBy := by
  unfold windowCall at ok
  split at ok
  · obtain ⟨value, -, rfl⟩ := bind_pure_eq_ok.mp ok
    exact ⟨_, _, rfl⟩
  · cases ok

theorem columns_windowCall {call : AggregateCall} {partitionBy : List Sql.Expr} {e : Sql.Expr}
    (ok : r.windowCall call partitionBy = .ok e) :
    isNull e = false ∧ ∀ column ∈ e.columns, column ∈ call.columns ∨
      column ∈ partitionBy.flatMap Sql.Expr.columns ∨ column = r.timeColumn := by
  unfold windowCall at ok
  split at ok
  · rename_i arg given
    obtain ⟨value, written, rfl⟩ := bind_pure_eq_ok.mp ok
    refine ⟨rfl, fun column member => ?_⟩
    simp only [Sql.pickWindow, Sql.Expr.columns, Sql.Expr.columns_apply, Sql.Expr.columnsEach_eq,
      Sql.Expr.columnsKeys_eq, List.mem_append, List.flatMap_singleton] at member
    rcases member with (member | member) | member
    · refine .inl ?_
      rw [AggregateCall.columns, given]
      exact columns_rowExpr written member
    · exact .inr (.inl member)
    · exact .inr (.inr (by simpa using member))
  · cases ok

end Rollup.Renderer
