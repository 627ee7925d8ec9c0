import Rollup.Proofs.Group.Interning
import Rollup.Proofs.Staging.Ready

/-! Every aggregate is computed once.

A stage below the last one has a field for each aggregate that the last stage reads, a window stage
one for each window function, and no two of these are equal calls. The other fields are the bucket,
columns and compound expressions. Whatever the last stage reads of an aggregate is its one field.
-/

set_option autoImplicit false

namespace Rollup

namespace StageBuilder
variable {b : StageBuilder} {scope : Scope} {stage groups last : Stage}

/-- Fields that are no aggregate: the bucket, columns, and compound expressions. -/
inductive IsOtherField (b : StageBuilder) (scope : Scope) : Field → Prop where
  | bucket {e : Sql.Expr} : b.BucketAt scope (some e) → IsOtherField b scope ⟨bucketName, e⟩
  | column (name source : String) : IsOtherField b scope ⟨name, .named source⟩
  | compound {part : SharedExpr} {field : Field} : part ∈ b.renderer.shared →
      part.expr.isCompound = true → b.IsSharedField scope part field → IsOtherField b scope field

/-- A stage with one field for each of some aggregates, which are different calls, and no field for
any other aggregate. -/
structure HoldsOnce (b : StageBuilder) (scope : Scope) (Holds : AggregateSlot → Field → Prop)
    (slots : List AggregateSlot) (stage : Stage) : Prop where
  fields : ∃ before held after, stage.fields = before ++ held ++ after ∧
    List.Forall₂ Holds slots held ∧ ∀ field ∈ before ++ after, b.IsOtherField scope field
  different : slots.Pairwise fun x y => (x.call == y.call) = false

theorem isOtherField_bucket {bucket : Option Sql.Expr} (start : b.BucketAt scope bucket)
    {field : Field} (member : field ∈ bucketFields bucket) : b.IsOtherField scope field := by
  cases bucket with
  | none => cases member
  | some e =>
    obtain rfl := List.mem_singleton.mp member
    exact .bucket start

theorem isOtherField_key {field : Field} (member : field ∈ b.keyFields scope) :
    b.IsOtherField scope field := by
  obtain ⟨key, -, rfl⟩ := List.mem_map.mp member
  cases scope <;> exact .column key.name _

theorem isOtherField_passed {field : Field} (member : field ∈ b.passedWindows scope) :
    b.IsOtherField scope field := by
  cases scope with
  | table => cases member
  | window | groups =>
    obtain ⟨name, -, rfl⟩ := List.mem_map.mp member
    exact .column name name

section
variable (different : b.renderer.slots.Pairwise fun x y => (x.call == y.call) = false)
include different

theorem holdsOnce_passes (compound : ∀ part ∈ b.renderer.shared, part.expr.isCompound = true)
    (passes : b.Passes scope stage) :
    b.HoldsOnce scope b.IsAggregateField b.groupSlots stage where
  fields := by
    obtain ⟨bucket, aggregates, shared, start, each, parts, fields⟩ := passes.fields
    refine ⟨bucketFields bucket ++ b.keyFields scope ++ b.passedWindows scope, aggregates, shared,
      by simp only [fields, List.append_assoc], each, fun field member => ?_⟩
    simp only [List.mem_append] at member
    rcases member with ((member | member) | member) | member
    · exact isOtherField_bucket start member
    · exact isOtherField_key member
    · exact isOtherField_passed member
    · obtain ⟨part, listed, is⟩ := related_of_mem_right parts member
      exact .compound listed (compound part listed) is
  different := different.sublist List.filter_sublist

theorem holdsOnce_windows (windows : b.Windows stage) :
    ∃ bucket, b.HoldsOnce .table (b.IsWindowField bucket) b.windowSlots stage := by
  obtain ⟨bucket, results, start, each, fields⟩ := windows.fields
  refine ⟨bucket, ⟨_, results, [], fields.trans (List.append_nil _).symm, each, ?_⟩,
    different.sublist List.filter_sublist⟩
  intro field member
  simp only [List.append_nil, List.mem_append] at member
  rcases member with (member | member) | member
  · exact isOtherField_bucket start member
  · exact isOtherField_key member
  · obtain ⟨column, -, rfl⟩ := List.mem_map.mp member
    exact .column column column

end

/-- How the aggregates of a query are computed, where a last stage reads the stage of groups and
window stages are before that. -/
structure ComputesOnce (b : StageBuilder) (before : List Stage) (groups last : Stage) : Prop where
  computes : b.Computes last
  grouped : ∃ scope, b.HoldsOnce scope b.IsAggregateField b.groupSlots groups
  windowed : ∀ stage ∈ before,
    ∃ bucket, b.HoldsOnce .table (b.IsWindowField bucket) b.windowSlots stage
  distinct : groups.names.Nodup
  needed : ∀ index slot, b.renderer.slots[index]? = some slot → slot.windowed = false →
    ((∃ field ∈ groups.fields, b.IsAggregateField slot field) ↔ b.ReadsLast index)
  read : ∀ index slot, b.renderer.slots[index]? = some slot → slot.windowed = false →
    b.ReadsLast index → ∃ field ∈ groups.fields, b.IsAggregateField slot field ∧
      b.renderer.reference .groups (.aggregate index) = .ok (.named field.name)

structure NamesOnce (b : StageBuilder) : Prop where
  distinct : b.Distinct
  compound : ∀ part ∈ b.renderer.shared, part.expr.isCompound = true
  different : b.renderer.slots.Pairwise fun x y => (x.call == y.call) = false
  named : ∀ index slot, b.renderer.slots[index]? = some slot → slot.windowed = false →
    (slot.name.isSome = true ↔ b.ReadsLast index)

namespace NamesOnce
variable (once : b.NamesOnce)
include once

theorem needed (passes : b.Passes scope groups) {index : Nat} {slot : AggregateSlot}
    (found : b.renderer.slots[index]? = some slot) (grouped : slot.windowed = false) :
    (∃ field ∈ groups.fields, b.IsAggregateField slot field) ↔ b.ReadsLast index := by
  rw [← once.named index slot found grouped]
  constructor
  · rintro ⟨field, -, -, given, -⟩
    rw [given]
    rfl
  · intro named
    obtain ⟨name, given⟩ := Option.isSome_iff_exists.mp named
    obtain ⟨e, written, listed⟩ := passes.slot_mem (List.mem_of_getElem? found) grouped given
    exact ⟨⟨name, e⟩, listed, grouped, given, written⟩

theorem computesOnce {before : List Stage} (windows : ∀ stage ∈ before, b.Windows stage)
    (passes : b.Passes scope groups) (computes : b.Computes last) :
    b.ComputesOnce before groups last where
  computes := computes
  grouped := ⟨scope, holdsOnce_passes once.different once.compound passes⟩
  windowed stage member := holdsOnce_windows once.different (windows stage member)
  distinct := once.distinct.passes passes
  needed _ _ found grouped := once.needed passes found grouped
  read index slot found grouped read := by
    obtain ⟨field, listed, is⟩ := (once.needed passes found grouped).mpr read
    refine ⟨field, listed, is, ?_⟩
    apply Renderer.aggregate_eq_ok.mpr
    exact ⟨slot, found, (Renderer.slotExpr_of_name (.inl rfl)).mpr ⟨field.name, is.2.1, rfl⟩⟩

/-- Only the stages before that of the groups tell the two layouts with a last stage apart. -/
theorem of_built {layout : Layout} {stages : List Stage} (built : b.Built layout stages)
    (above : layout.hasLastStage = true) :
    ∃ before groups last, stages = before ++ [groups, last] ∧
      b.ComputesOnce before groups last := by
  cases built with
  | flat => cases above
  | windowed => cases above
  | @computed stage last _ passes computes =>
    have none : ∀ stage ∈ [], b.Windows stage := fun _ member => absurd member List.not_mem_nil
    exact ⟨[], stage, last, rfl, once.computesOnce none passes computes⟩
  | @windowedComputed first stage last windows _ passes computes =>
    have one : ∀ stage ∈ [first], b.Windows stage := by
      intro stage member
      rw [List.mem_singleton.mp member]
      exact windows
    exact ⟨[first], stage, last, rfl, once.computesOnce one passes computes⟩

end NamesOnce

end StageBuilder

namespace Compiler
variable {c : Compiler} {query : Query} {seconds : Option Int} {a : Analysis}
  {carried : List String}

theorem finish_append (orderBy : List (Sql.SortKey Sql.Expr)) (rows : Option Sql.RowWindow)
    (before : List Stage) (groups last : Stage) :
    finish orderBy rows (before ++ [groups, last]) =
      before ++ [groups, { last with orderBy, rows }] := by
  induction before with
  | nil => rfl
  | cons first rest ih =>
    cases rest with
    | nil => rfl
    | cons next rest => exact congrArg (first :: ·) ih

theorem readsLast_of_isField {index : Nat} {slot : AggregateSlot} (grouped : slot.windowed = false)
    (is : (c.namingScope a carried).isField index slot = true) :
    (c.builder query seconds a carried).ReadsLast index := by
  simp only [NamingScope.isField, grouped, Bool.false_or, Bool.and_eq_true,
    List.contains_iff_mem] at is
  have refers : ∀ {e : GroupExpr}, index ∈ e.aggregates → .aggregate index ∈ e.references := by
    intro e member
    obtain ⟨target, refers, same⟩ := List.mem_filterMap.mp member
    cases target <;> cases same
    exact refers
  rcases List.mem_append.mp is.2 with member | member
  · obtain ⟨output, listed, member⟩ := List.mem_flatMap.mp member
    exact .inl ⟨output, listed, refers member⟩
  · obtain ⟨condition, listed, member⟩ := List.mem_flatMap.mp member
    obtain ⟨listed, level⟩ := List.mem_filter.mp listed
    exact .inr ⟨condition, listed, by simpa using level, refers member⟩

namespace Prepares
variable (prepares : c.Prepares query seconds a carried)
include prepares

theorem calls_named : (c.named a carried).1.map (·.call) = a.calls := by
  have calls := congrArg (List.map AggregateSlot.call) prepares.assigned.calls
  rw [List.map_map, slots, List.map_map] at calls
  exact calls.trans (List.map_id _)

theorem namesOnce_builder (above : (c.layoutOf a).hasLastStage = true) :
    (c.builder query seconds a carried).NamesOnce where
  distinct := prepares.distinct_builder
  compound := prepares.refers_builder.compound
  different := by
    have different := (interned_analyze prepares.analyzed).1
    rw [← prepares.calls_named] at different
    exact List.pairwise_map.mp different
  named index slot found grouped := by
    have unnamed : ∀ slot ∈ c.slots a.calls, slot.name = none :=
      fun slot member => (slot_of_call member).2
    constructor
    · intro named
      have only := NamingScope.onlyFieldsNamed_assign (c.namingScope a carried) unnamed
        (.ofTaken (c.takenNames a))
      exact readsLast_of_isField grouped (only index slot found named)
    · intro read
      have all := NamingScope.allNamed_assign (c.namingScope a carried) (c.slots a.calls)
        (.ofTaken (c.takenNames a))
      exact all.1 index slot found (isField_of_readsLast above read)

end Prepares

/-- Equal aggregate calls of a query are one aggregate. In a plan with a last stage the aggregates
that this stage reads, and no others but window functions, are fields of the stages below, each of
them one field, and this field is what is read. -/
theorem computedOnce_plan {plan : Plan} (ok : c.plan query = .ok plan) :
    ∃ seconds a carried stages orderBy, c.Accepts query plan seconds a carried stages orderBy ∧
      a.Interned c query seconds ∧
      (c.builder query seconds a carried).renderer.slots.map (·.call) = a.calls ∧
      ((c.layoutOf a).hasLastStage = true → ∃ before groups last,
        plan.stages =
          before ++ [groups, { last with orderBy, rows := query.limit.map rowWindow }] ∧
        (c.builder query seconds a carried).ComputesOnce before groups last) := by
  obtain ⟨seconds, a, carried, stages, orderBy, accepts⟩ := accepts_of_plan ok
  refine ⟨seconds, a, carried, stages, orderBy, accepts, (interned_analyze accepts.analyzed).2,
    accepts.calls_named, fun above => ?_⟩
  have once := accepts.namesOnce_builder above
  obtain ⟨-, -, built⟩ := StageBuilder.built_build accepts.built
  obtain ⟨before, groups, last, rfl, computes⟩ := once.of_built built above
  refine ⟨before, groups, last, ?_, computes⟩
  rw [accepts.plan]
  exact finish_append _ _ _ _ _

end Compiler

/-- Loads of hosts that sum their memory in three selectors and in the filter. The mean is shared,
and the sum besides it is read on its own; the maximum is tested only. -/
def Query.sharedLoad : Query where
  selectors := [⟨.column "host", none⟩, ⟨.call "sum" [.column "mem"], some "total"⟩,
    ⟨.binary .div (.call "sum" [.column "mem"]) (.call "count" [.column "cpu"]), some "mean"⟩,
    ⟨.binary .mul (.literal (.int 2))
      (.binary .div (.call "sum" [.column "mem"]) (.call "count" [.column "cpu"])), some "double"⟩,
    ⟨.binary .sub (.call "last" [.column "cpu"]) (.call "min" [.column "cpu"]), some "rise"⟩]
  filter := some (.binary .and
    (.binary .gt (.call "sum" [.column "mem"]) (.call "max" [.column "mem"]))
    (.binary .gt (.column "mean") (.literal (.int 1))))
  groupBy := ["host"]
  interval := some ⟨⟨0, 0⟩, ⟨3600, 0⟩, some ⟨60, .minutes⟩, none⟩

namespace Compiler

theorem plan_sharedLoad : ∃ plan, hosts.plan .sharedLoad = .ok plan :=
  isSome_toOption.mp (by decide +kernel)

theorem hasLastStage_sharedLoad {a : Analysis}
    (ok : hosts.analyze .sharedLoad ⟨.hosts, hosts.registry, some 60⟩ = .ok a) :
    (hosts.layoutOf a).hasLastStage = true := by
  have above : ((hosts.analyze .sharedLoad ⟨.hosts, hosts.registry, some 60⟩).toOption.all
      fun a => (hosts.layoutOf a).hasLastStage) = true := by decide +kernel
  rw [ok] at above
  exact above

theorem computedOnce_sharedLoad : ∃ plan, hosts.plan .sharedLoad = .ok plan ∧
    ∃ seconds a carried stages orderBy,
      hosts.Accepts .sharedLoad plan seconds a carried stages orderBy ∧
      a.Interned hosts .sharedLoad seconds ∧
      (hosts.builder .sharedLoad seconds a carried).renderer.slots.map (·.call) = a.calls ∧
      ∃ before groups last,
        plan.stages = before ++ [groups, { last with orderBy, rows := none }] ∧
        (hosts.builder .sharedLoad seconds a carried).ComputesOnce before groups last := by
  obtain ⟨plan, ok⟩ := plan_sharedLoad
  obtain ⟨seconds, a, carried, stages, orderBy, accepts, interned, calls, once⟩ :=
    computedOnce_plan ok
  have seconds_ : bucketSeconds .sharedLoad = .ok (some 60) := by decide
  obtain rfl := Except.ok.inj (accepts.bucket.symm.trans seconds_)
  exact ⟨plan, ok, some 60, a, carried, stages, orderBy, accepts, interned, calls,
    once (hasLastStage_sharedLoad accepts.analyzed)⟩

end Compiler

end Rollup
