import Rollup.Proofs.Result
import Rollup.Proofs.Staging.Written

/-! Where the parts of a query land.

Each part of it is written in some stage: a part of a condition where that is tested, a part of an
output where that is selected, or where an expression is computed that outputs share, and a part of
an argument in its aggregate or window function.
-/

set_option autoImplicit false

namespace Rollup

namespace StageBuilder
variable {b : StageBuilder} {layout : Layout} {stages : List Stage} {condition : Condition}

/-- The first stage tests the conditions on rows. -/
theorem Built.rows (built : b.Built layout stages) :
    ∃ stage ∈ stages, b.rowFilter = .ok stage.filter := by
  cases built with
  | flat groups _ => exact ⟨_, List.mem_cons_self, groups.filter⟩
  | computed groups _ _ => exact ⟨_, List.mem_cons_self, groups.filter⟩
  | windowed windows _ _ => exact ⟨_, List.mem_cons_self, windows.filter⟩
  | windowedComputed windows _ _ _ => exact ⟨_, List.mem_cons_self, windows.filter⟩

theorem Built.results (built : b.Built layout stages) (last : layout.hasLastStage = true) :
    ∃ stage ∈ stages, b.outputFilter = .ok stage.filter := by
  cases built with
  | flat _ _ => cases last
  | computed _ _ computes => exact ⟨_, by simp, computes.filter⟩
  | windowed _ _ _ => cases last
  | windowedComputed _ _ _ computes => exact ⟨_, by simp, computes.filter⟩

theorem Built.windows (built : b.Built layout stages) (windowed : layout.isWindowed = true) :
    ∃ stage ∈ stages, b.Windows stage := by
  cases built with
  | flat _ _ => cases windowed
  | computed _ _ _ => cases windowed
  | windowed windows _ _ => exact ⟨_, List.mem_cons_self, windows⟩
  | windowedComputed windows _ _ _ => exact ⟨_, List.mem_cons_self, windows⟩

theorem Written.condition_mem {scope : Scope} {written : List Sql.Expr}
    (each : b.Written condition.level scope written) (member : condition ∈ b.conditions) :
    ∃ e ∈ written, b.renderer.render scope condition.expr = .ok e :=
  related_of_mem_left each (List.mem_filter.mpr ⟨member, by simp⟩)

theorem Built.condition_mem (built : b.Built layout stages) (member : condition ∈ b.conditions)
    (above : condition.level = .output → layout.hasLastStage = true) :
    ∃ scope e, b.renderer.render scope condition.expr = .ok e ∧
      ∃ stage ∈ stages, stage.Writes e := by
  cases level : condition.level with
  | row =>
    obtain ⟨stage, listed, filter⟩ := built.rows
    obtain ⟨written, each, joined⟩ := rowFilter_eq_ok.mp filter
    obtain ⟨e, among, ok⟩ := (level ▸ each).condition_mem member
    obtain ⟨whole, is, within⟩ :=
      Sql.Expr.within_conjunction? (List.mem_append_right b.timeConditions among)
    exact ⟨.table, e, ok, stage, listed, (Stage.writes_filter (joined.trans is)).part within⟩
  | group =>
    obtain ⟨scope, stage, listed, groups⟩ := built.groups
    obtain ⟨e, ok, writes⟩ := groups.condition_mem member level
    exact ⟨scope, e, ok, stage, listed, writes⟩
  | output =>
    obtain ⟨stage, listed, filter⟩ := built.results (above level)
    obtain ⟨written, each, joined⟩ := outputFilter_eq_ok.mp filter
    obtain ⟨e, among, ok⟩ := (level ▸ each).condition_mem member
    obtain ⟨whole, is, within⟩ := Sql.Expr.within_conjunction? among
    exact ⟨.groups, e, ok, stage, listed, (Stage.writes_filter (joined.trans is)).part within⟩

end StageBuilder

namespace Compiler
variable {c : Compiler} {query : Query} {seconds : Option Int} {a : Analysis}
  {carried : List String} {stages : List Stage}

namespace Prepares
variable (prepares : c.Prepares query seconds a carried) (needs : c.registry.NeedsArguments)
  (built : (c.builder query seconds a carried).Built (c.layoutOf a) stages)
include prepares needs built

theorem condition_lands {condition : Condition} (member : condition ∈ a.conditions) :
    ∀ node ∈ condition.expr.nodes, ∃ scope x,
      (c.builder query seconds a carried).renderer.render scope node = .ok x ∧
        ∃ stage ∈ stages, stage.Writes x := by
  have above : condition.level = .output → (c.layoutOf a).hasLastStage = true := by
    intro level
    by_contra lastless
    exact (prepares.ready_builder needs).results (by simpa using lastless) condition member level
  obtain ⟨scope, e, ok, stage, listed, writes⟩ := built.condition_mem member above
  intro node within
  obtain ⟨x, ok, inside⟩ := Renderer.part_of_groupExpr ok node within
  exact ⟨scope, x, ok, stage, listed, writes.part inside⟩

/-- A part of an expression that outputs share is written where this is computed. -/
theorem shared_lands {shared : SharedExpr} (member : shared ∈ (c.sharing a).2) :
    ∀ node ∈ shared.expr.nodes, ∃ scope x,
      (c.builder query seconds a carried).renderer.render scope node = .ok x ∧
        ∃ stage ∈ stages, stage.Writes x := by
  have last : (c.layoutOf a).hasLastStage = true := by
    by_contra lastless
    rw [sharing_of_lastless (by simpa using lastless)] at member
    cases member
  have exprs : (c.named a carried).2.map (·.expr) = (c.sharing a).2.map (·.expr) :=
    prepares.assigned.exprs
  have listed := List.mem_map_of_mem (f := SharedExpr.expr) member
  rw [← exprs] at listed
  obtain ⟨part, among, same⟩ := List.mem_map.mp listed
  obtain ⟨name, named⟩ :=
    Option.isSome_iff_exists.mp ((prepares.ready_builder needs).parts part among)
  obtain ⟨scope, stage, listed, groups⟩ := built.groups
  obtain ⟨e, ok, field⟩ := (groups.passes last).shared_mem among named
  intro node within
  obtain ⟨x, ok, inside⟩ := Renderer.part_of_groupExpr ok node (same ▸ within)
  exact ⟨scope, x, ok, stage, listed, (Stage.writes_field field).part inside⟩

/-- Every part of an output is written out, with references for what is shared inside of it. -/
theorem output_lands {output : Output} (member : output ∈ a.outputs)
    (selected : output.isKey = false) :
    ∀ node ∈ output.expr.nodes, ∃ part scope x, part.isPlaceholder = false ∧
      (part.unshare ((c.sharing a).2.map (·.expr))).same node = true ∧
        (c.builder query seconds a carried).renderer.render scope part = .ok x ∧
          ∃ stage ∈ stages, stage.Writes x := by
  have sharing := sharing_of_sound (c := c) prepares.analysis
  obtain ⟨output', listed, from_⟩ := related_of_mem_left sharing.each member
  have among : output' ∈ (c.builder query seconds a carried).selected := by
    refine List.mem_filter.mpr ⟨listed, ?_⟩
    rw [Output.isKey, from_.kind]
    simpa [Output.isKey] using selected
  have kept : ∀ shared ∈ (c.sharing a).2.map (·.expr),
      shared.isPlain ∧ shared.isCompound = true := by
    intro shared listed
    obtain ⟨part, among, rfl⟩ := List.mem_map.mp listed
    refine ⟨fun index refers => ?_, sharing.compound part among⟩
    obtain ⟨origin, among, refers⟩ := sharing.refers part among _ refers
    exact (prepares.analysis.outputs origin among).isPlain index refers
  intro node within
  obtain ⟨part, place, written, same⟩ := GroupExpr.part_of_unshare
    (prepares.analysis.outputs output member).isPlain kept from_.same node within
  rcases place with within | ⟨shared, listed, within⟩
  · obtain ⟨last, scope, top, selects⟩ := built.selects
    obtain ⟨e, ok, field⟩ := selects.output_mem among
    obtain ⟨x, ok, inside⟩ := Renderer.part_of_groupExpr ok part within
    exact ⟨part, scope, x, written, same, ok, last, List.mem_of_getLast? top,
      (Stage.writes_field field).part inside⟩
  · obtain ⟨shared, among, rfl⟩ := List.mem_map.mp listed
    obtain ⟨scope, x, ok, lands⟩ := prepares.shared_lands needs built among part within
    exact ⟨part, scope, x, written, same, ok, lands⟩

/-- Every part of an argument is written inside of its aggregate, or of its window function. -/
theorem argument_lands {database : Sql.Database} (dialect : c.dialect = database.dialect)
    {call : AggregateCall} (member : call ∈ a.calls) {arg : Expr} (given : call.arg = some arg) :
    ∀ node ∈ arg.nodes, ∃ x, Renderer.rowExpr node = .ok x ∧ ∃ stage ∈ stages, stage.Writes x := by
  let b := c.builder query seconds a carried
  suffices whole : ∃ value, Renderer.rowExpr arg = .ok value ∧
      ∃ stage ∈ stages, stage.Writes value by
    obtain ⟨value, row, stage, listed, writes⟩ := whole
    intro node within
    obtain ⟨x, ok, inside⟩ := Renderer.part_of_rowExpr row node within
    exact ⟨x, ok, stage, listed, writes.part inside⟩
  have same : b.renderer.dialect = database.dialect := dialect
  obtain ⟨slot, among, rfl⟩ := prepares.slot_of_mem member
  cases windowed : slot.windowed with
  | false =>
    obtain ⟨x, ok, stage, listed, writes⟩ :=
      prepares.computed_of_built needs built among windowed
    obtain ⟨value, row, within⟩ := Renderer.arg_of_aggregate same given ok
    exact ⟨value, row, stage, listed, writes.part within⟩
  | true =>
    have windows : (c.layoutOf a).isWindowed = true := by
      by_contra unwindowed
      have grouped := prepares.sound_builder.grouped (by simpa using unwindowed) slot among
      cases windowed.symm.trans grouped
    obtain ⟨stage, listed, windows⟩ := built.windows windows
    obtain ⟨-, named⟩ := (prepares.ready_builder needs).windows slot among windowed
    obtain ⟨name, named⟩ := Option.isSome_iff_exists.mp named
    obtain ⟨bucket, x, -, ok, field⟩ := windows.slot_mem among windowed named
    obtain ⟨value, row, within⟩ := Renderer.arg_of_windowCall given ok
    exact ⟨value, row, stage, listed, (Stage.writes_field field).part within⟩

end Prepares

theorem writes_finish {orderBy : List (Sql.SortKey Sql.Expr)} {rows : Option Sql.RowWindow}
    {x : Sql.Expr} {stage : Stage} (member : stage ∈ stages) (writes : stage.Writes x) :
    ∃ stage ∈ finish orderBy rows stages, stage.Writes x := by
  fun_induction finish orderBy rows stages with
  | case1 => cases member
  | case2 last =>
    obtain rfl := List.mem_singleton.mp member
    exact ⟨_, List.mem_cons_self, writes⟩
  | case3 first next rest ih =>
    rcases List.mem_cons.mp member with rfl | member
    · exact ⟨stage, List.mem_cons_self, writes⟩
    · obtain ⟨finished, listed, writes⟩ := ih member
      exact ⟨finished, List.mem_cons_of_mem _ listed, writes⟩

end Compiler

end Rollup
