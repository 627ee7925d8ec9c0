import Rollup.Proofs.Staging.Part
import Rollup.Proofs.Staging.Ready

/-! Every aggregate is written somewhere.

An aggregate is collected because an output or a condition refers to it. Wherever that is, the stage
of groups has to compute the aggregate: as a field that the last stage reads, as a part of an output
or of something that outputs share, or in its own condition. So an accepted query has no aggregate
that its database could not compute.
-/

set_option autoImplicit false

namespace Rollup

namespace StageBuilder

/-- A stage of groups, with or without a last stage above it. -/
structure Groups (b : StageBuilder) (layout : Layout) (scope : Scope) (stage : Stage) : Prop where
  early : scope ≠ .groups
  having : b.groupFilter scope = .ok stage.having
  passes : layout.hasLastStage = true → b.Passes scope stage
  selects : layout.hasLastStage = false → b.Selects scope stage

theorem Built.groups {b : StageBuilder} {layout : Layout} {stages : List Stage}
    (built : b.Built layout stages) : ∃ scope, ∃ stage ∈ stages, b.Groups layout scope stage := by
  cases built with
  | flat groups selects =>
    exact ⟨.table, _, by simp, nofun, groups.having, nofun, fun _ => selects⟩
  | computed groups passes _ =>
    exact ⟨.table, _, List.mem_cons_self, nofun, groups.having, fun _ => passes, nofun⟩
  | windowed _ groups selects =>
    exact ⟨.window, _, by simp, nofun, groups.having, nofun, fun _ => selects⟩
  | windowedComputed _ groups passes _ =>
    exact ⟨.window, _, by simp, nofun, groups.having, fun _ => passes, nofun⟩

theorem Groups.condition_mem {b : StageBuilder} {layout : Layout} {scope : Scope} {stage : Stage}
    (groups : b.Groups layout scope stage) {condition : Condition}
    (member : condition ∈ b.conditions) (level : condition.level = .group) :
    ∃ e, b.renderer.render scope condition.expr = .ok e ∧ stage.Writes e := by
  obtain ⟨written, each, joined⟩ := groupFilter_eq_ok.mp groups.having
  obtain ⟨e, among, ok⟩ :=
    related_of_mem_left each (List.mem_filter.mpr ⟨member, by simp [level]⟩)
  obtain ⟨whole, is, within⟩ := Sql.Expr.within_conjunction? among
  exact ⟨e, ok, (Stage.writes_having (joined.trans is)).part within⟩

namespace Groups
variable {b : StageBuilder} {layout : Layout} {scope : Scope} {stage : Stage}
  (groups : b.Groups layout scope stage) {index : Nat} {slot : AggregateSlot}
  (found : b.renderer.slots[index]? = some slot) (grouped : slot.windowed = false)
include groups found grouped

theorem computed_of_render {e : GroupExpr} {written : Sql.Expr}
    (ok : b.renderer.render scope e = .ok written) (refers : .aggregate index ∈ e.references) :
    ∃ x, b.renderer.aggregate slot.call = .ok x ∧ x.Within written := by
  obtain ⟨x, ok, within⟩ := Renderer.reference_of_groupExpr ok refers
  obtain ⟨other, place, ok⟩ := Renderer.aggregate_eq_ok.mp ok
  obtain rfl := Option.some.inj (place.symm.trans found)
  exact ⟨x, Renderer.slotExpr_of_call groups.early grouped ▸ ok, within⟩

theorem computed_of_name (last : layout.hasLastStage = true) (named : slot.name.isSome = true) :
    ∃ x, b.renderer.aggregate slot.call = .ok x ∧ stage.Writes x := by
  obtain ⟨name, given⟩ := Option.isSome_iff_exists.mp named
  obtain ⟨x, ok, listed⟩ :=
    (groups.passes last).slot_mem (List.mem_of_getElem? found) grouped given
  exact ⟨x, ok, Stage.writes_field listed⟩

theorem computed_of_shared (last : layout.hasLastStage = true) {part : SharedExpr}
    (member : part ∈ b.renderer.shared) (named : part.name.isSome = true)
    (refers : .aggregate index ∈ part.expr.references) :
    ∃ x, b.renderer.aggregate slot.call = .ok x ∧ stage.Writes x := by
  obtain ⟨name, given⟩ := Option.isSome_iff_exists.mp named
  obtain ⟨_, ok, listed⟩ := (groups.passes last).shared_mem member given
  obtain ⟨x, ok, within⟩ := groups.computed_of_render found grouped ok refers
  exact ⟨x, ok, (Stage.writes_field listed).part within⟩

theorem computed_of_condition {condition : Condition} (member : condition ∈ b.conditions)
    (level : condition.level = .group) (refers : .aggregate index ∈ condition.expr.references) :
    ∃ x, b.renderer.aggregate slot.call = .ok x ∧ stage.Writes x := by
  obtain ⟨e, ok, writes⟩ := groups.condition_mem member level
  obtain ⟨x, ok, within⟩ := groups.computed_of_render found grouped ok refers
  exact ⟨x, ok, writes.part within⟩

end Groups

end StageBuilder

namespace Compiler
variable {c : Compiler} {query : Query} {seconds : Option Int} {a : Analysis}
  {carried : List String}

theorem sharing_of_lastless (lastless : (c.layoutOf a).hasLastStage = false) :
    c.sharing a = (a.outputs, []) := by
  rw [sharing, if_neg (by simp [lastless])]

namespace Prepares
variable (prepares : c.Prepares query seconds a carried)
include prepares

theorem computed_of_output (needs : c.registry.NeedsArguments) {scope : Scope} {stage : Stage}
    (groups : (c.builder query seconds a carried).Groups (c.layoutOf a) scope stage) {index : Nat}
    {slot : AggregateSlot} (found : (c.named a carried).1[index]? = some slot)
    (grouped : slot.windowed = false) {output : Output} (member : output ∈ a.outputs)
    (refers : .aggregate index ∈ output.expr.references) :
    ∃ x, (c.builder query seconds a carried).renderer.aggregate slot.call = .ok x ∧
      stage.Writes x := by
  have ready := prepares.ready_builder needs
  cases last : (c.layoutOf a).hasLastStage with
  | true =>
    obtain ⟨output', listed, from_⟩ :=
      related_of_mem_left (sharing_of_sound prepares.analysis).each member
    rcases from_.source refers with refers | ⟨place, e, -, there, refers⟩
    · exact groups.computed_of_name found grouped last
        (ready.fields last index slot found (.inl ⟨output', listed, refers⟩))
    · have exprs : (c.named a carried).2.map (·.expr) = (c.sharing a).2.map (·.expr) :=
        prepares.assigned.exprs
      rw [← exprs, List.getElem?_map, Option.map_eq_some_iff] at there
      obtain ⟨part, there, rfl⟩ := there
      have shared := List.mem_of_getElem? there
      exact groups.computed_of_shared found grouped last shared (ready.parts part shared) refers
  | false =>
    have kept : output ∈ (c.sharing a).1 := by
      rw [sharing_of_lastless last]
      exact member
    have selected : output ∈ (c.builder query seconds a carried).selected := by
      refine List.mem_filter.mpr ⟨kept, ?_⟩
      -- A group key refers to no aggregate.
      cases key : output.isKey with
      | false => rfl
      | true =>
        unfold Output.isKey at key
        split at key
        · rename_i place is
          rw [((prepares.analysis.outputs output member).of_key is).1] at refers
          cases List.mem_singleton.mp refers
        · cases key
    obtain ⟨_, ok, listed⟩ := (groups.selects last).output_mem selected
    obtain ⟨x, ok, within⟩ := groups.computed_of_render found grouped ok refers
    exact ⟨x, ok, (Stage.writes_field listed).part within⟩

/-- An accepted query has no aggregate of groups that cannot be computed. -/
theorem computed_of_built (needs : c.registry.NeedsArguments) {stages : List Stage}
    (built : (c.builder query seconds a carried).Built (c.layoutOf a) stages)
    {slot : AggregateSlot} (member : slot ∈ (c.named a carried).1)
    (grouped : slot.windowed = false) :
    ∃ x, (c.builder query seconds a carried).renderer.aggregate slot.call = .ok x ∧
      ∃ stage ∈ stages, stage.Writes x := by
  have ready := prepares.ready_builder needs
  obtain ⟨scope, stage, listed, groups⟩ := built.groups
  suffices computed : ∃ x, (c.builder query seconds a carried).renderer.aggregate slot.call =
      .ok x ∧ stage.Writes x by
    obtain ⟨x, ok, writes⟩ := computed
    exact ⟨x, ok, stage, listed, writes⟩
  obtain ⟨index, found⟩ := List.mem_iff_getElem?.mp member
  have below : index < a.calls.length := by
    have extent : (c.named a carried).1.length = a.calls.length :=
      congrArg Extent.aggregates prepares.extent_builder
    exact extent ▸ (List.getElem?_eq_some_iff.mp found).1
  rcases (complete_analyze needs prepares.analyzed).used index below with
    ⟨output, among, refers⟩ | ⟨condition, among, refers⟩
  · exact prepares.computed_of_output needs groups found grouped among refers
  · cases level : condition.level with
    | row =>
      rcases ready.refers.row condition among level _ refers with ⟨_, is⟩ | ⟨_, is⟩ <;> cases is
    | group => exact groups.computed_of_condition found grouped among level refers
    | output =>
      have last : (c.layoutOf a).hasLastStage = true := by
        by_contra lastless
        exact ready.results (by simpa using lastless) condition among level
      exact groups.computed_of_name found grouped last
        (ready.fields last index slot found (.inr ⟨condition, among, level, refers⟩))

end Prepares

end Compiler

end Rollup
