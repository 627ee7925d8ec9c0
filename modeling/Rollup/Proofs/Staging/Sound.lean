import Mathlib.Data.List.Perm.Basic
import Rollup.Proofs.Staging.Build

/-! What the stages of a query rely on.

The columns that are read are stored ones, the names of the fields of a stage are different, and
expressions refer to what there is where they are written.
-/

set_option autoImplicit false

namespace Rollup

namespace StageBuilder

/-- All columns that are read from the table are stored. -/
structure Stored (b : StageBuilder) (schema : Schema) : Prop where
  timeColumn : schema.isStored b.renderer.timeColumn = true
  time : ∀ range, b.time = some range → range.column = b.renderer.timeColumn
  keys : ∀ key ∈ b.keys, schema.isStored key.column = true
  slots : ∀ slot ∈ b.renderer.slots, ∀ column ∈ slot.call.columns, schema.isStored column = true
  carried : ∀ column ∈ b.carried, schema.isStored column = true
  conditions : ∀ condition ∈ b.conditions, ∀ name, .column name ∈ condition.expr.references →
    schema.isStored name = true

structure Refers (b : StageBuilder) : Prop where
  outputs : ∀ output ∈ b.renderer.outputs, ∀ target ∈ output.expr.references,
    target.isInner = true
  /-- An output that is computed is a compound expression, or all of it is shared. -/
  computed : ∀ output ∈ b.renderer.outputs, output.kind = .computed →
    output.expr.isCompound = true ∨ ∃ index, output.expr = .reference (.shared index)
  shared : ∀ part ∈ b.renderer.shared, ∀ target ∈ part.expr.references, target.isLifted = true
  compound : ∀ part ∈ b.renderer.shared, part.expr.isCompound = true
  row : ∀ condition ∈ b.conditions, condition.level = .row →
    ∀ target ∈ condition.expr.references,
      (∃ name, target = .column name) ∨ ∃ index, target = .key index
  group : ∀ condition ∈ b.conditions, condition.level = .group →
    ∀ target ∈ condition.expr.references, target.isLifted = true
  output : ∀ condition ∈ b.conditions, condition.level = .output →
    ∀ target ∈ condition.expr.references, target.isLifted = true ∨
      ∃ index output, target = .output index ∧ b.renderer.outputs[index]? = some output ∧
        output.kind = .computed

/-- The names of the fields of every stage are different. -/
structure Distinct (b : StageBuilder) : Prop where
  outputs : (b.bucketNames ++ b.keyNames ++ b.selected.map (·.name)).Nodup
  fields : (b.bucketNames ++ b.keyNames ++
    (fieldNames b.renderer.slots ++ sharedNames b.renderer.shared)).Nodup
  carried : (b.keyNames ++ b.carried ++ fieldNames b.windowSlots).Nodup
  /-- An output with the name of an aggregate is this aggregate. -/
  slotOutput : ∀ index slot name, b.renderer.slots[index]? = some slot → slot.name = some name →
    ∀ output ∈ b.selected, output.name = name → output.expr = .reference (.aggregate index)

/-- What the stages of a layout rely on. -/
structure Sound (b : StageBuilder) (layout : Layout) (schema : Schema) : Prop where
  stored : b.Stored schema
  refers : b.Refers
  distinct : b.Distinct
  /-- Without a window stage there are no window results. -/
  grouped : layout.isWindowed = false → ∀ slot ∈ b.renderer.slots, slot.windowed = false
  /-- What an aggregate behind a window stage reads is a column that is passed on, or a key under
  its own name. -/
  carries : layout.isWindowed = true → ∀ slot ∈ b.renderer.slots, slot.windowed = false →
    ∀ column ∈ Compiler.slotColumns b.renderer.timeColumn slot,
      column ∈ b.carried ∨ GroupKey.mk column column ∈ b.keys

namespace Distinct
variable {b : StageBuilder} {scope : Scope} {stage : Stage} (distinct : b.Distinct)
include distinct

theorem windows (windows : b.Windows stage) (visible : bucketName ∉ b.carried) :
    stage.names.Nodup := by
  have head := List.nodup_append.mp (List.nodup_append.mp distinct.outputs).1
  have results : fieldNames b.windowSlots ⊆ fieldNames b.renderer.slots :=
    (List.filter_sublist.filterMap _).subset
  rw [windows.names, List.append_assoc, List.append_assoc, ← List.append_assoc b.keyNames]
  refine List.nodup_append.mpr ⟨head.1, distinct.carried, ?_⟩
  rintro name bucket other member rfl
  have same : name = bucketName := (mem_bucketNames.mp bucket).2
  rcases List.mem_append.mp member with member | result
  · rcases List.mem_append.mp member with key | carried
    · exact head.2.2 name bucket name key rfl
    · exact visible (same ▸ carried)
  · exact (List.nodup_append.mp distinct.fields).2.2 name (List.mem_append_left _ bucket) name
      (List.mem_append_left _ (results result)) rfl

theorem selects (selects : b.Selects scope stage) : stage.names.Nodup := by
  rw [selects.names]
  exact distinct.outputs

theorem passes (passes : b.Passes scope stage) : stage.names.Nodup := by
  have windows :
      List.Sublist ((b.passedWindows scope).map (·.name)) (fieldNames b.windowSlots) := by
    cases scope <;> simp [passedWindows, Function.comp_def]
  have grouped : List.Sublist b.groupSlots (b.renderer.slots.filter (!·.windowed)) := by
    refine List.monotone_filter_right _ fun slot is => ?_
    simp only [Bool.and_eq_true] at is
    exact is.1
  -- The window results and the aggregates of the groups are all aggregates in another order.
  have all : (fieldNames b.windowSlots ++
      fieldNames (b.renderer.slots.filter (!·.windowed))).Perm (fieldNames b.renderer.slots) := by
    rw [← fieldNames_append]
    exact (List.filter_append_perm _ _).filterMap _
  have names := (((all.append_right (sharedNames b.renderer.shared)).append_left
    (b.bucketNames ++ b.keyNames)).nodup_iff).mpr distinct.fields
  rw [passes.names]
  exact names.sublist ((List.Sublist.refl _).append
    ((windows.append (grouped.filterMap _)).append (List.Sublist.refl _)))

end Distinct

end StageBuilder

end Rollup
