import Mathlib.Data.List.Nodup
import Rollup.Proofs.Staging.FieldName
import Rollup.Proofs.Staging.Reference
import Rollup.Staging.Build

/-! What stages are made of.

Every stage passes on the bucket and the keys. A window stage adds the columns that are passed on
and the window results, a stage of groups below a last one adds aggregates and shared expressions,
and the last stage adds the outputs.
-/

set_option autoImplicit false

namespace Rollup.StageBuilder

variable {b : StageBuilder}

/-! ## Parts -/

def bucketFields (bucket : Option Sql.Expr) : List Field :=
  (bucket.map fun e => ⟨bucketName, e⟩).toList

def bucketNames (b : StageBuilder) : List String := if b.isBucketed then [bucketName] else []

def passedBucket (b : StageBuilder) : Option Sql.Expr :=
  if b.isBucketed then some (.named bucketName) else none

def keyFields (b : StageBuilder) (scope : Scope) : List Field :=
  b.keys.map fun key => ⟨key.name, Renderer.keyExpr key scope⟩

def keyNames (b : StageBuilder) : List String := b.keys.map (·.name)

/-- What rows agree on that a window function looks at together. -/
def partition (b : StageBuilder) (bucket : Option Sql.Expr) : List Sql.Expr :=
  b.keys.map (fun key => .named key.column) ++ bucket.toList

def carriedFields (b : StageBuilder) : List Field :=
  b.carried.map fun column => ⟨column, .named column⟩

theorem bucketStart?_eq_ok {bucket : Option Sql.Expr} (ok : b.bucketStart? = .ok bucket) :
    b.isBucketed = false ∧ bucket = none ∨
      b.isBucketed = true ∧ ∃ time step e, b.time = some time ∧ time.step = some step ∧
        b.renderer.dialect.timeFloor (.named time.column) step = some e ∧ bucket = some e := by
  unfold bucketStart? at ok
  split at ok
  · rename_i start stop column step time
    split at ok
    · rename_i e floor
      cases ok
      exact .inr ⟨by rw [isBucketed, step?, time]; rfl, _, step, e, time, rfl, floor, rfl⟩
    · cases ok
  · rename_i other
    cases ok
    refine .inl ⟨?_, rfl⟩
    rw [isBucketed, step?]
    cases time : b.time with
    | none => rfl
    | some range =>
      obtain ⟨start, stop, column, step⟩ := range
      cases step with
      | none => rfl
      | some seconds => exact absurd time (other start stop column seconds)

theorem isSome_bucket {bucket : Option Sql.Expr} (ok : b.bucketStart? = .ok bucket) :
    bucket.isSome = b.isBucketed := by
  rcases bucketStart?_eq_ok ok with ⟨absent, rfl⟩ | ⟨there, _, _, _, _, _, _, rfl⟩
  · exact absent.symm
  · exact there.symm

theorem isSome_passedBucket : b.passedBucket.isSome = b.isBucketed := by
  unfold passedBucket
  split <;> simp_all

theorem names_bucketFields {bucket : Option Sql.Expr} (there : bucket.isSome = b.isBucketed) :
    (bucketFields bucket).map (·.name) = b.bucketNames := by
  rw [bucketNames, ← there]
  cases bucket <;> rfl

theorem mem_bucketNames {name : String} :
    name ∈ b.bucketNames ↔ b.isBucketed = true ∧ name = bucketName := by
  unfold bucketNames
  split <;> simp_all

theorem mem_bucketColumn {e : Sql.Expr} :
    e ∈ b.bucketColumn ↔ b.isBucketed = true ∧ e = .named bucketName := by
  unfold bucketColumn
  split <;> simp_all

theorem passedBucket_eq_some {e : Sql.Expr} :
    b.passedBucket = some e ↔ b.isBucketed = true ∧ Sql.Expr.named bucketName = e := by
  unfold passedBucket
  split <;> simp_all

theorem names_keyFields (scope : Scope) : (b.keyFields scope).map (·.name) = b.keyNames := by
  simp [keyFields, keyNames]

theorem names_carriedFields : b.carriedFields.map (·.name) = b.carried := by
  simp [carriedFields, Function.comp_def]

theorem mem_keyFields {key : GroupKey} (member : key ∈ b.keys) (scope : Scope) :
    ⟨key.name, Renderer.keyExpr key scope⟩ ∈ b.keyFields scope :=
  List.mem_map_of_mem (f := fun key => Field.mk key.name (Renderer.keyExpr key scope)) member

theorem tableFields_eq_ok {fields : List Field} :
    b.tableFields = .ok fields ↔
      ∃ bucket, b.bucketStart? = .ok bucket ∧
        fields = bucketFields bucket ++ b.keyFields .table := bind_pure_eq_ok

theorem passedFields_eq : b.passedFields = bucketFields b.passedBucket ++ b.keyFields .groups := by
  unfold passedFields passedBucket
  split <;> rfl

/-! ## Conditions -/

def Written (b : StageBuilder) (level : Level) (scope : Scope) (written : List Sql.Expr) : Prop :=
  List.Forall₂ (fun condition e => b.renderer.render scope condition.expr = .ok e)
    (b.conditions.filter (·.level == level)) written

theorem conditionsAt_eq_ok {level : Level} {scope : Scope} {written : List Sql.Expr} :
    b.conditionsAt level scope = .ok written ↔ b.Written level scope written := mapM_eq_ok

theorem rowFilter_eq_ok {filter : Option Sql.Expr} :
    b.rowFilter = .ok filter ↔ ∃ written, b.Written .row .table written ∧
      filter = Sql.conjunction? (b.timeConditions ++ written) := by
  simp only [rowFilter, bind_pure_eq_ok, conditionsAt_eq_ok]

theorem groupFilter_eq_ok {scope : Scope} {filter : Option Sql.Expr} :
    b.groupFilter scope = .ok filter ↔ ∃ written, b.Written .group scope written ∧
      filter = Sql.conjunction? written := by
  simp only [groupFilter, bind_pure_eq_ok, conditionsAt_eq_ok]

theorem outputFilter_eq_ok {filter : Option Sql.Expr} :
    b.outputFilter = .ok filter ↔ ∃ written, b.Written .output .groups written ∧
      filter = Sql.conjunction? written := by
  simp only [outputFilter, bind_pure_eq_ok, conditionsAt_eq_ok]

theorem outputConditions_of_check {layout : Layout} (ok : b.checkConditions layout = .ok ())
    (lastless : layout.hasLastStage = false) :
    b.conditions.filter (·.level == .output) = [] := by
  unfold checkConditions at ok
  rw [if_neg (by simp [lastless])] at ok
  split at ok
  · cases ok
  · rename_i absent
    exact List.filter_eq_nil_iff.mpr (List.find?_eq_none.mp absent)

/-! ## Fields -/

/-- An aggregate that is computed in a stage of groups, and its field. -/
def IsAggregateField (b : StageBuilder) (slot : AggregateSlot) (field : Field) : Prop :=
  slot.windowed = false ∧ slot.name = some field.name ∧
    b.renderer.aggregate slot.call = .ok field.expr

def IsWindowField (b : StageBuilder) (bucket : Option Sql.Expr) (slot : AggregateSlot)
    (field : Field) : Prop :=
  slot.name = some field.name ∧
    b.renderer.windowCall slot.call (b.partition bucket) = .ok field.expr

def IsSharedField (b : StageBuilder) (scope : Scope) (part : SharedExpr) (field : Field) : Prop :=
  part.name = some field.name ∧ b.renderer.render scope part.expr = .ok field.expr

def IsOutputField (b : StageBuilder) (scope : Scope) (output : Output) (field : Field) : Prop :=
  field.name = output.name ∧ b.renderer.render scope output.expr = .ok field.expr

def groupSlots (b : StageBuilder) : List AggregateSlot :=
  b.renderer.slots.filter fun slot => !slot.windowed && slot.name.isSome

theorem aggregateFields_eq_ok {fields : List Field} (ok : b.aggregateFields = .ok fields) :
    List.Forall₂ b.IsAggregateField b.groupSlots fields := by
  rw [aggregateFields, mapM_eq_ok] at ok
  unfold groupSlots
  generalize b.renderer.slots = slots at ok
  -- Window results and aggregates without a name have no field, so both lists skip the same ones.
  induction slots generalizing fields with
  | nil =>
    cases ok
    exact .nil
  | cons slot rest ih =>
    rw [List.filterMap_cons] at ok
    split at ok
    · rename_i skipped
      rw [List.filter_cons_of_neg]
      · exact ih ok
      · intro grouped
        simp only [Bool.and_eq_true, Bool.not_eq_true'] at grouped
        simp only [grouped.1, Bool.false_eq_true, if_false, Option.map_eq_none_iff] at skipped
        simp [skipped] at grouped
    · rename_i entry kept
      split at kept
      · cases kept
      · rename_i grouped
        obtain ⟨name, named, rfl⟩ := Option.map_eq_some_iff.mp kept
        rw [List.filter_cons_of_pos (by simp [grouped, named])]
        cases ok with
        | cons first tail =>
          simp only [bind_pure_eq_ok] at first
          obtain ⟨e, written, rfl⟩ := first
          exact .cons ⟨by simpa using grouped, named, written⟩ (ih tail)

theorem outputFields_eq_ok {scope : Scope} {fields : List Field}
    (ok : b.outputFields scope = .ok fields) :
    List.Forall₂ (b.IsOutputField scope) b.selected fields := by
  rw [outputFields, mapM_eq_ok] at ok
  refine ok.imp fun output field ok => ?_
  obtain ⟨e, written, rfl⟩ := bind_pure_eq_ok.mp ok
  exact ⟨rfl, written⟩

theorem windowFields_eq_ok {bucket : Option Sql.Expr} {fields : List Field}
    (ok : b.windowSlots.mapM (b.windowField (b.partition bucket)) = .ok fields) :
    List.Forall₂ (b.IsWindowField bucket) b.windowSlots fields := by
  refine (mapM_eq_ok.mp ok).imp fun slot field ok => ?_
  simp only [windowField, bind_eq_ok, pure_eq_ok] at ok
  obtain ⟨name, named, e, ok, rfl⟩ := ok
  exact ⟨Renderer.slotName_eq_ok.mp named, ok⟩

theorem sharedFields_eq_ok {scope : Scope} {fields : List Field}
    (ok : b.sharedFields scope = .ok fields) :
    List.Forall₂ (b.IsSharedField scope) b.renderer.shared fields := by
  rw [sharedFields, mapM_eq_ok] at ok
  rw [← List.zipIdx_map_fst 0 b.renderer.shared, List.forall₂_map_left_iff]
  refine ok.imp fun (part, index) field ok => ?_
  simp only [sharedField, bind_eq_ok, pure_eq_ok] at ok
  obtain ⟨name, named, e, ok, rfl⟩ := ok
  exact ⟨Renderer.sharedName_eq_ok.mp named, ok⟩

theorem slotNames_eq_ok {slots : List AggregateSlot} {names : List String}
    (ok : slots.mapM Renderer.slotName = .ok names) :
    List.Forall₂ (fun slot name => slot.name = some name) slots names :=
  (mapM_eq_ok.mp ok).imp fun _ _ => Renderer.slotName_eq_ok.mp

/-! ## Stages -/

def BucketAt (b : StageBuilder) (scope : Scope) (bucket : Option Sql.Expr) : Prop :=
  match scope with
  | .table => b.bucketStart? = .ok bucket
  | .window | .groups => bucket = b.passedBucket

theorem isSome_bucketAt {scope : Scope} {bucket : Option Sql.Expr} (at_ : b.BucketAt scope bucket) :
    bucket.isSome = b.isBucketed := by
  cases scope with
  | table => exact isSome_bucket at_
  | window => exact at_ ▸ isSome_passedBucket
  | groups => exact at_ ▸ isSome_passedBucket

/-- The window results as a stage of groups passes them on. -/
def passedWindows (b : StageBuilder) : Scope → List Field
  | .table => []
  | .window | .groups => (fieldNames b.windowSlots).map fun name => ⟨name, .named name⟩

-- The stages as they are in every layout. A stage is told apart by what it groups and by what it
-- passes on, and one stage may be of two of these kinds.

/-- A stage that computes window functions. -/
structure Windows (b : StageBuilder) (stage : Stage) : Prop where
  fields : ∃ bucket results, b.BucketAt .table bucket ∧
    List.Forall₂ (b.IsWindowField bucket) b.windowSlots results ∧
    stage.fields = bucketFields bucket ++ b.keyFields .table ++ b.carriedFields ++ results
  source : stage.source = .table b.table
  filter : b.rowFilter = .ok stage.filter
  groupBy : stage.groupBy = []
  having : stage.having = none
  whole : stage.orderBy = [] ∧ stage.rows = none

/-- A stage whose fields are the outputs. -/
structure Selects (b : StageBuilder) (scope : Scope) (stage : Stage) : Prop where
  fields : ∃ bucket outputs, b.BucketAt scope bucket ∧
    List.Forall₂ (b.IsOutputField scope) b.selected outputs ∧
    stage.fields = bucketFields bucket ++ b.keyFields scope ++ outputs

/-- A stage whose fields are what a last stage reads. -/
structure Passes (b : StageBuilder) (scope : Scope) (stage : Stage) : Prop where
  fields : ∃ bucket aggregates shared, b.BucketAt scope bucket ∧
    List.Forall₂ b.IsAggregateField b.groupSlots aggregates ∧
    List.Forall₂ (b.IsSharedField scope) b.renderer.shared shared ∧
    stage.fields =
      bucketFields bucket ++ b.keyFields scope ++ (b.passedWindows scope ++ aggregates ++ shared)

/-- A stage that groups the rows of the table. -/
structure GroupsTable (b : StageBuilder) (stage : Stage) : Prop where
  source : stage.source = .table b.table
  filter : b.rowFilter = .ok stage.filter
  groupBy : stage.groupBy = b.tableGrouping
  having : b.groupFilter .table = .ok stage.having
  whole : stage.orderBy = [] ∧ stage.rows = none

/-- A stage that groups rows with window results. -/
structure GroupsWindow (b : StageBuilder) (stage : Stage) : Prop where
  source : stage.source = .previous
  filter : stage.filter = none
  groupBy : stage.groupBy = b.keys.map (fun key => .named key.name) ++
    (fieldNames b.windowSlots).map .named ++ b.bucketColumn
  having : b.groupFilter .window = .ok stage.having
  whole : stage.orderBy = [] ∧ stage.rows = none

/-- A stage that computes from the results of groups. -/
structure Computes (b : StageBuilder) (stage : Stage) : Prop extends Selects b .groups stage where
  source : stage.source = .previous
  filter : b.outputFilter = .ok stage.filter
  groupBy : stage.groupBy = []
  having : stage.having = none
  whole : stage.orderBy = [] ∧ stage.rows = none

/-- What a field of a stage is written from, unless the stage computes window functions. -/
inductive IsField (b : StageBuilder) (scope : Scope) (field : Field) : Prop where
  | bucket (start : b.BucketAt scope (some field.expr)) (named : field.name = bucketName)
  | reference {target : Reference} (lifted : target.isLifted = true)
      (ok : b.renderer.plainReference scope target = .ok field.expr)
  | output {output : Output} (among : output ∈ b.renderer.outputs)
      (ok : b.renderer.render scope output.expr = .ok field.expr)
  | shared {part : SharedExpr} (among : part ∈ b.renderer.shared)
      (ok : b.renderer.render scope part.expr = .ok field.expr)

theorem windows_windowStage {stage : Stage} (ok : b.windowStage = .ok stage) :
    b.Windows stage := by
  simp only [windowStage, bind_eq_ok, pure_eq_ok, tableFields_eq_ok] at ok
  obtain ⟨bucket, start, fields, ⟨bucket', start', rfl⟩, results, written, filter, tested, rfl⟩ :=
    ok
  cases start.symm.trans start'
  exact ⟨⟨bucket, results, start, windowFields_eq_ok written, rfl⟩, rfl, tested, rfl, rfl, rfl, rfl⟩

theorem of_flatStage {stage : Stage} (ok : b.flatStage = .ok stage) :
    b.GroupsTable stage ∧ b.Selects .table stage := by
  simp only [flatStage, bind_eq_ok, pure_eq_ok, tableFields_eq_ok] at ok
  obtain ⟨fields, ⟨bucket, start, rfl⟩, outputs, written, filter, tested, having_, groups, rfl⟩ :=
    ok
  exact ⟨⟨rfl, tested, rfl, groups, rfl, rfl⟩,
    ⟨bucket, outputs, start, outputFields_eq_ok written, rfl⟩⟩

theorem of_groupStage {stage : Stage} (ok : b.groupStage = .ok stage) :
    b.GroupsTable stage ∧ b.Passes .table stage := by
  simp only [groupStage, bind_eq_ok, pure_eq_ok, tableFields_eq_ok] at ok
  obtain ⟨fields, ⟨bucket, start, rfl⟩, aggregates, computed, shared, written, filter, tested,
    having_, groups, rfl⟩ := ok
  refine ⟨⟨rfl, tested, rfl, groups, rfl, rfl⟩, ⟨bucket, aggregates, shared, start,
    aggregateFields_eq_ok computed, sharedFields_eq_ok written, ?_⟩⟩
  rw [passedWindows, List.nil_append, List.append_assoc]

theorem computes_lastStage {stage : Stage} (ok : b.lastStage = .ok stage) : b.Computes stage := by
  simp only [lastStage, bind_eq_ok, pure_eq_ok] at ok
  obtain ⟨outputs, written, filter, tested, rfl⟩ := ok
  refine ⟨⟨b.passedBucket, outputs, rfl, outputFields_eq_ok written, ?_⟩, rfl, tested, rfl, rfl,
    rfl, rfl⟩
  rw [passedFields_eq]

theorem fieldNames_of_named {slots : List AggregateSlot} {names : List String}
    (named : List.Forall₂ (fun slot name => slot.name = some name) slots names) :
    fieldNames slots = names := by
  induction named with
  | nil => rfl
  | cons first _ ih => exact (List.filterMap_cons_some first).trans (congrArg _ ih)

theorem of_regroupStage {belowLast : Bool} {stage : Stage}
    (ok : b.regroupStage belowLast = .ok stage) :
    b.GroupsWindow stage ∧
      if belowLast then b.Passes .window stage else b.Selects .window stage := by
  cases belowLast with
  | true =>
    simp only [regroupStage, if_true, bind_eq_ok, pure_eq_ok] at ok ⊢
    obtain ⟨names, named, aggregates, computed, shared, parts, results, rfl, having_, groups,
      rfl⟩ := ok
    obtain rfl := fieldNames_of_named (slotNames_eq_ok named)
    refine ⟨⟨rfl, rfl, rfl, groups, rfl, rfl⟩, b.passedBucket, aggregates, shared, rfl,
      aggregateFields_eq_ok computed, sharedFields_eq_ok parts, ?_⟩
    rw [passedFields_eq]
    rfl
  | false =>
    simp only [regroupStage, Bool.false_eq_true, if_false, bind_eq_ok, pure_eq_ok] at ok ⊢
    obtain ⟨names, named, results, written, having_, groups, rfl⟩ := ok
    obtain rfl := fieldNames_of_named (slotNames_eq_ok named)
    refine ⟨⟨rfl, rfl, rfl, groups, rfl, rfl⟩, b.passedBucket, results, rfl,
      outputFields_eq_ok written, ?_⟩
    rw [passedFields_eq]
    rfl

/-! ## Fields of stages -/

theorem names_windowFields {bucket : Option Sql.Expr} {slots : List AggregateSlot}
    {fields : List Field} (each : List.Forall₂ (b.IsWindowField bucket) slots fields) :
    fields.map (·.name) = fieldNames slots :=
  (fieldNames_of_named (List.forall₂_map_right_iff.mpr (each.imp fun _ _ => And.left))).symm

theorem names_aggregateFields {slots : List AggregateSlot} {fields : List Field}
    (each : List.Forall₂ b.IsAggregateField slots fields) :
    fields.map (·.name) = fieldNames slots :=
  (fieldNames_of_named (List.forall₂_map_right_iff.mpr (each.imp fun _ _ is => is.2.1))).symm

theorem names_sharedFields {scope : Scope} {parts : List SharedExpr} {fields : List Field}
    (each : List.Forall₂ (b.IsSharedField scope) parts fields) :
    fields.map (·.name) = sharedNames parts := by
  induction each with
  | nil => rfl
  | cons first _ ih =>
    exact ((List.filterMap_cons_some first.1).trans (congrArg _ ih.symm)).symm

theorem names_outputFields {scope : Scope} {outputs : List Output} {fields : List Field}
    (each : List.Forall₂ (b.IsOutputField scope) outputs fields) :
    fields.map (·.name) = outputs.map (·.name) := by
  induction each with
  | nil => rfl
  | cons first _ ih => exact congrArg₂ List.cons first.1 ih

theorem mem_windowSlots {slot : AggregateSlot} :
    slot ∈ b.windowSlots ↔ slot ∈ b.renderer.slots ∧ slot.windowed = true := List.mem_filter

theorem mem_groupSlots {slot : AggregateSlot} :
    slot ∈ b.groupSlots ↔
      slot ∈ b.renderer.slots ∧ slot.windowed = false ∧ slot.name.isSome = true := by
  simp [groupSlots]

namespace Windows
variable {stage : Stage} (windows : b.Windows stage)
include windows

theorem names :
    stage.names = b.bucketNames ++ b.keyNames ++ b.carried ++ fieldNames b.windowSlots := by
  obtain ⟨bucket, results, start, each, fields⟩ := windows.fields
  simp only [Stage.names, fields, List.map_append, names_bucketFields (isSome_bucketAt start),
    names_keyFields, names_carriedFields, names_windowFields each]

theorem bucket_mem : ∃ bucket, b.BucketAt .table bucket ∧
    ∀ e, bucket = some e → ⟨bucketName, e⟩ ∈ stage.fields := by
  obtain ⟨bucket, results, start, each, fields⟩ := windows.fields
  refine ⟨bucket, start, fun e same => ?_⟩
  rw [fields, same]
  exact List.mem_append_left _ (List.mem_append_left _ (List.mem_append_left _
    List.mem_cons_self))

theorem key_mem {key : GroupKey} (member : key ∈ b.keys) :
    ⟨key.name, .named key.column⟩ ∈ stage.fields := by
  obtain ⟨bucket, results, start, each, fields⟩ := windows.fields
  rw [fields]
  exact List.mem_append_left _ (List.mem_append_left _ (List.mem_append_right _
    (mem_keyFields member .table)))

theorem carried_mem {column : String} (member : column ∈ b.carried) :
    ⟨column, .named column⟩ ∈ stage.fields := by
  obtain ⟨bucket, results, start, each, fields⟩ := windows.fields
  rw [fields]
  exact List.mem_append_left _ (List.mem_append_right _
    (List.mem_map_of_mem (f := fun column => Field.mk column (.named column)) member))

theorem slot_mem {slot : AggregateSlot} {name : String} (member : slot ∈ b.renderer.slots)
    (windowed : slot.windowed = true) (named : slot.name = some name) :
    ∃ bucket e, b.BucketAt .table bucket ∧
      b.renderer.windowCall slot.call (b.partition bucket) = .ok e ∧
      ⟨name, e⟩ ∈ stage.fields := by
  obtain ⟨bucket, results, start, each, fields⟩ := windows.fields
  obtain ⟨field, listed, named', written⟩ :=
    related_of_mem_left each (mem_windowSlots.mpr ⟨member, windowed⟩)
  obtain rfl := Option.some.inj (named'.symm.trans named)
  rw [fields]
  exact ⟨bucket, field.expr, start, written, List.mem_append_right _ listed⟩

end Windows

theorem isField_head {scope : Scope} {bucket : Option Sql.Expr} (start : b.BucketAt scope bucket) :
    ∀ field ∈ bucketFields bucket ++ b.keyFields scope, b.IsField scope field := by
  intro field member
  rcases List.mem_append.mp member with member | member
  · cases bucket with
    | none => cases member
    | some e =>
      obtain rfl := List.mem_singleton.mp member
      exact .bucket start rfl
  · obtain ⟨key, listed, rfl⟩ := List.mem_map.mp member
    obtain ⟨index, found⟩ := List.mem_iff_getElem?.mp listed
    have lifted : (Reference.key index).isLifted = true := rfl
    exact .reference lifted (Renderer.key_eq_ok.mpr ⟨key, found, rfl⟩)

theorem isField_slot {scope : Scope} {field : Field} {slot : AggregateSlot}
    (among : slot ∈ b.renderer.slots) (ok : b.renderer.slotExpr slot scope = .ok field.expr) :
    b.IsField scope field := by
  obtain ⟨index, found⟩ := List.mem_iff_getElem?.mp among
  have lifted : (Reference.aggregate index).isLifted = true := rfl
  exact .reference lifted (Renderer.aggregate_eq_ok.mpr ⟨slot, found, ok⟩)

namespace Selects
variable {scope : Scope} {stage : Stage} (selects : b.Selects scope stage)
include selects

theorem isField : ∀ field ∈ stage.fields, b.IsField scope field := by
  obtain ⟨bucket, outputs, start, each, fields⟩ := selects.fields
  rw [fields]
  refine List.forall_mem_append.mpr ⟨isField_head start, fun field member => ?_⟩
  obtain ⟨output, among, -, ok⟩ := related_of_mem_right each member
  exact .output (List.mem_of_mem_filter among) ok

theorem names : stage.names = b.bucketNames ++ b.keyNames ++ b.selected.map (·.name) := by
  obtain ⟨bucket, outputs, start, each, fields⟩ := selects.fields
  simp only [Stage.names, fields, List.map_append, names_bucketFields (isSome_bucketAt start),
    names_keyFields, names_outputFields each]

theorem key_mem {key : GroupKey} (member : key ∈ b.keys) :
    ⟨key.name, Renderer.keyExpr key scope⟩ ∈ stage.fields := by
  obtain ⟨bucket, outputs, start, each, fields⟩ := selects.fields
  rw [fields]
  exact List.mem_append_left _ (List.mem_append_right _ (mem_keyFields member scope))

theorem output_mem {output : Output} (member : output ∈ b.selected) :
    ∃ e, b.renderer.render scope output.expr = .ok e ∧ ⟨output.name, e⟩ ∈ stage.fields := by
  obtain ⟨bucket, outputs, start, each, fields⟩ := selects.fields
  obtain ⟨field, listed, named, written⟩ := related_of_mem_left each member
  rw [fields, ← named]
  exact ⟨field.expr, written, List.mem_append_right _ listed⟩

end Selects

namespace Passes
variable {scope : Scope} {stage : Stage} (passes : b.Passes scope stage)
include passes

theorem isField (early : scope ≠ .groups) : ∀ field ∈ stage.fields, b.IsField scope field := by
  obtain ⟨bucket, aggregates, shared, start, each, parts, fields⟩ := passes.fields
  rw [fields]
  -- A window result is read under its name, all other aggregates are computed.
  refine List.forall_mem_append.mpr ⟨isField_head start, List.forall_mem_append.mpr
    ⟨List.forall_mem_append.mpr ⟨fun field member => ?_, fun field member => ?_⟩,
      fun field member => ?_⟩⟩
  · have window :
        field ∈ (fieldNames b.windowSlots).map fun name => Field.mk name (.named name) := by
      cases scope with
      | table => cases member
      | _ => exact member
    obtain ⟨given, named, rfl⟩ := List.mem_map.mp window
    obtain ⟨slot, among, named⟩ := mem_fieldNames.mp named
    obtain ⟨among, windowed⟩ := mem_windowSlots.mp among
    exact isField_slot among ((Renderer.slotExpr_of_name (.inr windowed)).mpr ⟨given, named, rfl⟩)
  · obtain ⟨slot, among, computed, -, written⟩ := related_of_mem_right each member
    exact isField_slot (mem_groupSlots.mp among).1
      ((Renderer.slotExpr_of_call early computed).trans written)
  · obtain ⟨part, among, -, ok⟩ := related_of_mem_right parts member
    exact .shared among ok

theorem names : stage.names = b.bucketNames ++ b.keyNames ++
    ((b.passedWindows scope).map (·.name) ++ fieldNames b.groupSlots ++
      sharedNames b.renderer.shared) := by
  obtain ⟨bucket, aggregates, shared, start, each, parts, fields⟩ := passes.fields
  simp only [Stage.names, fields, List.map_append, names_bucketFields (isSome_bucketAt start),
    names_keyFields, names_aggregateFields each, names_sharedFields parts]

theorem key_mem {key : GroupKey} (member : key ∈ b.keys) :
    ⟨key.name, Renderer.keyExpr key scope⟩ ∈ stage.fields := by
  obtain ⟨bucket, aggregates, shared, start, each, parts, fields⟩ := passes.fields
  rw [fields]
  exact List.mem_append_left _ (List.mem_append_right _ (mem_keyFields member scope))

theorem window_mem {slot : AggregateSlot} {name : String} (late : scope ≠ .table)
    (member : slot ∈ b.renderer.slots) (windowed : slot.windowed = true)
    (named : slot.name = some name) : ⟨name, .named name⟩ ∈ stage.fields := by
  obtain ⟨bucket, aggregates, shared, start, each, parts, fields⟩ := passes.fields
  have listed : ⟨name, .named name⟩ ∈ b.passedWindows scope := by
    cases scope with
    | table => exact absurd rfl late
    | _ =>
      exact List.mem_map_of_mem (f := fun name => Field.mk name (.named name))
        (mem_fieldNames.mpr ⟨slot, mem_windowSlots.mpr ⟨member, windowed⟩, named⟩)
  rw [fields]
  exact List.mem_append_right _ (List.mem_append_left _ (List.mem_append_left _ listed))

theorem slot_mem {slot : AggregateSlot} {name : String} (member : slot ∈ b.renderer.slots)
    (grouped : slot.windowed = false) (named : slot.name = some name) :
    ∃ e, b.renderer.aggregate slot.call = .ok e ∧ ⟨name, e⟩ ∈ stage.fields := by
  obtain ⟨bucket, aggregates, shared, start, each, parts, fields⟩ := passes.fields
  obtain ⟨field, listed, -, named', written⟩ :=
    related_of_mem_left each (mem_groupSlots.mpr ⟨member, grouped, by rw [named]; rfl⟩)
  obtain rfl := Option.some.inj (named'.symm.trans named)
  rw [fields]
  exact ⟨field.expr, written,
    List.mem_append_right _ (List.mem_append_left _ (List.mem_append_right _ listed))⟩

theorem shared_mem {part : SharedExpr} {name : String} (member : part ∈ b.renderer.shared)
    (named : part.name = some name) :
    ∃ e, b.renderer.render scope part.expr = .ok e ∧ ⟨name, e⟩ ∈ stage.fields := by
  obtain ⟨bucket, aggregates, shared, start, each, parts, fields⟩ := passes.fields
  obtain ⟨field, listed, named', written⟩ := related_of_mem_left parts member
  obtain rfl := Option.some.inj (named'.symm.trans named)
  rw [fields]
  exact ⟨field.expr, written, List.mem_append_right _ (List.mem_append_right _ listed)⟩

end Passes

/-! ## Layouts -/

inductive Built (b : StageBuilder) : Layout → List Stage → Prop where
  | flat {stage : Stage} : b.GroupsTable stage → b.Selects .table stage → Built b .flat [stage]
  | computed {stage last : Stage} :
      b.GroupsTable stage → b.Passes .table stage → b.Computes last →
        Built b .computed [stage, last]
  | windowed {first stage : Stage} :
      b.Windows first → b.GroupsWindow stage → b.Selects .window stage →
        Built b .windowed [first, stage]
  | windowedComputed {first stage last : Stage} :
      b.Windows first → b.GroupsWindow stage → b.Passes .window stage → b.Computes last →
        Built b .windowedComputed [first, stage, last]

/-- What a single stage of a layout is. -/
inductive IsStage (b : StageBuilder) (layout : Layout) (stage : Stage) : Prop where
  | flat : layout.isWindowed = false → b.GroupsTable stage → b.Selects .table stage →
      IsStage b layout stage
  | groups : layout.isWindowed = false → b.GroupsTable stage → b.Passes .table stage →
      IsStage b layout stage
  | windows : b.Windows stage → IsStage b layout stage
  | regroups (first : Stage) : layout.isWindowed = true → b.Windows first → b.GroupsWindow stage →
      b.Selects .window stage → IsStage b layout stage
  | passes (first : Stage) : layout.isWindowed = true → b.Windows first → b.GroupsWindow stage →
      b.Passes .window stage → IsStage b layout stage
  | last : b.Computes stage → IsStage b layout stage

theorem Built.isStage {layout : Layout} {stages : List Stage} (built : b.Built layout stages)
    {stage : Stage} (member : stage ∈ stages) : b.IsStage layout stage := by
  cases built with
  | flat groups selects =>
    obtain rfl := List.mem_singleton.mp member
    exact .flat rfl groups selects
  | computed groups passes computes =>
    simp only [List.mem_cons, List.not_mem_nil, or_false] at member
    rcases member with rfl | rfl
    · exact .groups rfl groups passes
    · exact .last computes
  | windowed windows groups selects =>
    simp only [List.mem_cons, List.not_mem_nil, or_false] at member
    rcases member with rfl | rfl
    · exact .windows windows
    · exact .regroups _ rfl windows groups selects
  | windowedComputed windows groups passes computes =>
    simp only [List.mem_cons, List.not_mem_nil, or_false] at member
    rcases member with rfl | rfl | rfl
    · exact .windows windows
    · exact .passes _ rfl windows groups passes
    · exact .last computes

theorem built_stages {layout : Layout} {stages : List Stage} (ok : b.stages layout = .ok stages) :
    b.Built layout stages := by
  cases layout with
  | flat =>
    obtain ⟨stage, only, rfl⟩ := bind_pure_eq_ok.mp ok
    obtain ⟨groups, selects⟩ := of_flatStage only
    exact .flat groups selects
  | computed =>
    simp only [StageBuilder.stages, bind_eq_ok, pure_eq_ok] at ok
    obtain ⟨stage, ok, last, top, rfl⟩ := ok
    obtain ⟨groups, passes⟩ := of_groupStage ok
    exact .computed groups passes (computes_lastStage top)
  | windowed =>
    simp only [StageBuilder.stages, bind_eq_ok, pure_eq_ok] at ok
    obtain ⟨first, bottom, stage, ok, rfl⟩ := ok
    obtain ⟨groups, selects⟩ := of_regroupStage ok
    exact .windowed (windows_windowStage bottom) groups selects
  | windowedComputed =>
    simp only [StageBuilder.stages, bind_eq_ok, pure_eq_ok] at ok
    obtain ⟨first, bottom, stage, ok, last, top, rfl⟩ := ok
    obtain ⟨groups, passes⟩ := of_regroupStage ok
    exact .windowedComputed (windows_windowStage bottom) groups passes (computes_lastStage top)

theorem built_build {layout : Layout} {stages : List Stage} (ok : b.build layout = .ok stages) :
    b.checkConditions layout = .ok () ∧ b.checkVisibility stages = .ok () ∧
      b.Built layout stages := by
  simp only [build, bind_eq_ok, pure_eq_ok] at ok
  obtain ⟨⟨⟩, tested, stages, built, ⟨⟩, visible, rfl⟩ := ok
  exact ⟨tested, visible, built_stages built⟩

end Rollup.StageBuilder
