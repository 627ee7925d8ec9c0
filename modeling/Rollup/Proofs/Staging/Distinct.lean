import Rollup.Proofs.Compiler
import Rollup.Proofs.Plan

/-! The names of the fields of a stage.

They are different, so that a name in a later stage means one field, with a single exception. A
window stage passes columns of the table on under their own names. It rejects a key that has the
name of such a column, but it does not look at the bucket: where the table stores a column with the
name of the bucket, and an aggregate behind the window stage reads it, two fields have this name.
-/

set_option autoImplicit false

namespace Rollup

/-- A stage that passes a column of the table on beside a bucket of the same name. -/
structure Stage.HidesBucket (schema : Schema) (stage : Stage) : Prop where
  source : stage.source = .table schema.table
  stored : schema.isStored bucketName = true
  fields : ∃ start rest, stage.fields = ⟨bucketName, start⟩ :: rest ∧
    ⟨bucketName, .named bucketName⟩ ∈ rest

theorem Stage.HidesBucket.repeats {schema : Schema} {stage : Stage}
    (hides : stage.HidesBucket schema) : ¬ stage.names.Nodup := by
  obtain ⟨start, rest, fields, member⟩ := hides.fields
  intro distinct
  rw [Stage.names, fields, List.map_cons, List.nodup_cons] at distinct
  exact distinct.1 (List.mem_map.mpr ⟨_, member, rfl⟩)

namespace StageBuilder
variable {b : StageBuilder} {stage : Stage}

theorem Windows.hidesBucket {schema : Schema} (windows : b.Windows stage)
    (table : b.table = schema.table) (stored : b.Stored schema) (bucketed : b.isBucketed = true)
    (hidden : bucketName ∈ b.carried) : stage.HidesBucket schema where
  source := table ▸ windows.source
  stored := stored.carried bucketName hidden
  fields := by
    obtain ⟨bucket, results, start, -, fields⟩ := windows.fields
    obtain ⟨e, rfl⟩ := Option.isSome_iff_exists.mp ((isSome_bucketAt start).trans bucketed)
    have passed : Field.mk bucketName (.named bucketName) ∈ b.carriedFields :=
      List.mem_map_of_mem (f := fun column => Field.mk column (.named column)) hidden
    refine ⟨e, b.keyFields .table ++ b.carriedFields ++ results, fields, ?_⟩
    exact List.mem_append_left _ (List.mem_append_right _ passed)

-- Only a window stage has names that no other part of the query has been compared with.
theorem Distinct.built {layout : Layout} {stages : List Stage} (distinct : b.Distinct)
    (built : b.Built layout stages) (member : stage ∈ stages) :
    stage.names.Nodup ∨ b.Windows stage := by
  cases built.isStage member with
  | flat _ _ selects => exact .inl (distinct.selects selects)
  | groups _ _ passes => exact .inl (distinct.passes passes)
  | windows windows => exact .inr windows
  | regroups _ _ _ _ selects => exact .inl (distinct.selects selects)
  | passes _ _ _ _ passes => exact .inl (distinct.passes passes)
  | last computes => exact .inl (distinct.selects computes.toSelects)

theorem Distinct.unbucketed (distinct : b.Distinct) (windows : b.Windows stage)
    (unbucketed : b.isBucketed = false) : stage.names.Nodup := by
  have none : b.bucketNames = [] := by rw [bucketNames, unbucketed]; rfl
  rw [windows.names, none, List.nil_append]
  exact distinct.carried

end StageBuilder

namespace Compiler

/-- The names of the fields of every stage are different, unless the stage hides a column behind the
bucket. -/
theorem distinct_plan {c : Compiler} {query : Query} {plan : Plan}
    (ok : c.plan query = .ok plan) : ∀ stage ∈ plan.stages,
    stage.names.Nodup ↔ ¬ (isBucketed query = true ∧ stage.HidesBucket c.schema) := by
  obtain ⟨seconds, a, carried, stages, orderBy, accepts⟩ := accepts_of_plan ok
  let b := c.builder query seconds a carried
  have distinct : b.Distinct := accepts.distinct_builder
  have sameBucket : b.isBucketed = isBucketed query := isBucketed_builder accepts.bucket
  obtain ⟨-, -, built⟩ := StageBuilder.built_build accepts.built
  intro stage member
  refine ⟨fun different ⟨_, hides⟩ => hides.repeats different, fun unhidden => ?_⟩
  rw [accepts.plan] at member
  obtain ⟨origin, listed, finished⟩ := mem_finish member
  have fields : stage.fields = origin.fields := by rcases finished with rfl | rfl <;> rfl
  have source : stage.source = origin.source := by rcases finished with rfl | rfl <;> rfl
  rw [Stage.names, fields]
  rcases distinct.built built listed with different | windows
  · exact different
  cases bucketed : b.isBucketed with
  | false => exact distinct.unbucketed windows bucketed
  | true =>
    refine distinct.windows windows fun hidden => unhidden ⟨sameBucket.symm.trans bucketed, ?_⟩
    have hides := windows.hidesBucket rfl accepts.stored_builder bucketed hidden
    exact ⟨source.trans hides.source, hides.stored, fields ▸ hides.fields⟩

theorem distinct_risingLoad : ∃ plan, hosts.plan .risingLoad = .ok plan ∧
    ∀ stage ∈ plan.stages, stage.names.Nodup ↔
      ¬ (isBucketed .risingLoad = true ∧ stage.HidesBucket hosts.schema) := by
  obtain ⟨plan, ok⟩ := plan_risingLoad
  exact ⟨plan, ok, distinct_plan ok⟩

end Compiler

/-- Hosts whose table stores the time under the name of the bucket. -/
def Compiler.stampedHosts : Compiler :=
  { hosts with schema := { Schema.hosts with timestamp := bucketName } }

def Query.latestLoad : Query where
  selectors := [⟨.call "last" [.column "cpu"], some "load"⟩,
    ⟨.call "max" [.column bucketName], some "latest"⟩]
  groupBy := ["host"]
  interval := some ⟨⟨0, 0⟩, ⟨3600, 0⟩, some ⟨60, .minutes⟩, none⟩

/-- The window stage passes the time on for its maximum, beside the bucket of the same name. -/
theorem Compiler.ambiguous_latestLoad : ∃ plan, stampedHosts.plan .latestLoad = .ok plan ∧
    ∃ stage ∈ plan.stages, ¬ stage.names.Nodup := by
  have accepted : ((stampedHosts.plan .latestLoad).toOption.any fun plan =>
      plan.stages.any fun stage => !decide stage.names.Nodup) = true := by decide +kernel
  obtain ⟨plan, ok, repeated⟩ := any_toOption.mp accepted
  obtain ⟨stage, listed, twice⟩ := List.any_eq_true.mp repeated
  exact ⟨plan, ok, stage, listed, by simpa using twice⟩

end Rollup
