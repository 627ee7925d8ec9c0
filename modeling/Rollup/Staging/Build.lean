import Rollup.Plan
import Rollup.Staging.Rendering

/-! Building the stages of a plan.

Conditions on single rows and the range of time are tested where the table is read, conditions on
groups behind the grouping, and all others in the last stage. Where window functions are computed
first, a second stage groups their rows, also by the window results, which are the same in all rows
of a group.
-/

set_option autoImplicit false

namespace Rollup

structure TimeRange where
  start : Instant
  stop : Instant
  column : String
  step : Option Int
  deriving Repr

structure StageBuilder where
  renderer : Renderer
  table : String
  conditions : List Condition
  time : Option TimeRange
  carried : List String

namespace StageBuilder

def keys (b : StageBuilder) : List GroupKey := b.renderer.keys

/-- The outputs that are no keys. -/
def selected (b : StageBuilder) : List Output := b.renderer.outputs.filter (!·.isKey)

def step? (b : StageBuilder) : Option Int := b.time.bind (·.step)

def isBucketed (b : StageBuilder) : Bool := b.step?.isSome

def bucketStart? (b : StageBuilder) : Except CompileError (Option Sql.Expr) :=
  match b.time with
  | some ⟨_, _, column, some step⟩ =>
    match b.renderer.dialect.timeFloor (.named column) step with
    | some e => .ok (some e)
    | none =>
      .error (.dialectCapability b.renderer.dialect.name s!"time bucketing on `{column}`")
  | _ => .ok none

def tableFields (b : StageBuilder) : Except CompileError (List Field) := do
  let bucket ← b.bucketStart?
  return (bucket.map fun e => ⟨bucketName, e⟩).toList ++
    b.keys.map fun key => ⟨key.name, .named key.column⟩

def passedFields (b : StageBuilder) : List Field :=
  (if b.isBucketed then [⟨bucketName, .named bucketName⟩] else []) ++
    b.keys.map fun key => ⟨key.name, .named key.name⟩

def timeConditions (b : StageBuilder) : List Sql.Expr :=
  match b.time with
  | none => []
  | some time =>
    let literal := b.renderer.dialect.timestamp
    [.binary .gte (.named time.column) (literal time.start),
      .binary .lt (.named time.column) (literal time.stop)]

def conditionsAt (b : StageBuilder) (level : Level) (scope : Scope) :
    Except CompileError (List Sql.Expr) :=
  (b.conditions.filter (·.level == level)).mapM fun condition =>
    b.renderer.render scope condition.expr

def rowFilter (b : StageBuilder) : Except CompileError (Option Sql.Expr) := do
  return Sql.conjunction? (b.timeConditions ++ (← b.conditionsAt .row .table))

def groupFilter (b : StageBuilder) (scope : Scope) : Except CompileError (Option Sql.Expr) := do
  return Sql.conjunction? (← b.conditionsAt .group scope)

def outputFilter (b : StageBuilder) : Except CompileError (Option Sql.Expr) := do
  return Sql.conjunction? (← b.conditionsAt .output .groups)

def bucketColumn (b : StageBuilder) : List Sql.Expr :=
  if b.isBucketed then [.named bucketName] else []

def tableGrouping (b : StageBuilder) : List Sql.Expr :=
  b.keys.map (fun key => .named key.column) ++ b.bucketColumn

def aggregateFields (b : StageBuilder) : Except CompileError (List Field) :=
  (b.renderer.slots.filterMap fun slot =>
    if slot.windowed then none else slot.name.map fun name => (name, slot.call)).mapM
      fun (name, call) => do return ⟨name, ← b.renderer.aggregate call⟩

def sharedField (b : StageBuilder) (scope : Scope) (shared : SharedExpr) (index : Nat) :
    Except CompileError Field := do
  let name ← Renderer.sharedName index shared
  return ⟨name, ← b.renderer.render scope shared.expr⟩

def sharedFields (b : StageBuilder) (scope : Scope) : Except CompileError (List Field) :=
  b.renderer.shared.zipIdx.mapM fun (shared, index) => b.sharedField scope shared index

def outputFields (b : StageBuilder) (scope : Scope) : Except CompileError (List Field) :=
  b.selected.mapM fun output => do return ⟨output.name, ← b.renderer.render scope output.expr⟩

def flatStage (b : StageBuilder) : Except CompileError Stage := do
  return {
    source := .table b.table
    fields := (← b.tableFields) ++ (← b.outputFields .table)
    filter := ← b.rowFilter
    groupBy := b.tableGrouping
    having := ← b.groupFilter .table }

/-- The stage that groups the rows of the table, below a last stage. -/
def groupStage (b : StageBuilder) : Except CompileError Stage := do
  return {
    source := .table b.table
    fields := (← b.tableFields) ++ (← b.aggregateFields) ++ (← b.sharedFields .table)
    filter := ← b.rowFilter
    groupBy := b.tableGrouping
    having := ← b.groupFilter .table }

def lastStage (b : StageBuilder) : Except CompileError Stage := do
  return {
    source := .previous
    fields := b.passedFields ++ (← b.outputFields .groups)
    filter := ← b.outputFilter }

def windowSlots (b : StageBuilder) : List AggregateSlot := b.renderer.slots.filter (·.windowed)

def windowField (b : StageBuilder) (partitionBy : List Sql.Expr) (slot : AggregateSlot) :
    Except CompileError Field := do
  let name ← Renderer.slotName slot
  return ⟨name, ← b.renderer.windowCall slot.call partitionBy⟩

def windowStage (b : StageBuilder) : Except CompileError Stage := do
  let bucket ← b.bucketStart?
  let partitionBy := b.keys.map (fun key => .named key.column) ++ bucket.toList
  let carried := b.carried.map fun column => ⟨column, .named column⟩
  return {
    source := .table b.table
    fields := (← b.tableFields) ++ carried ++ (← b.windowSlots.mapM (b.windowField partitionBy))
    filter := ← b.rowFilter }

/-- The stage that groups rows with window results; below a last stage it passes these on. -/
def regroupStage (b : StageBuilder) (belowLast : Bool) : Except CompileError Stage := do
  let names ← b.windowSlots.mapM Renderer.slotName
  let results ←
    if belowLast then do
      let aggregates ← b.aggregateFields
      let shared ← b.sharedFields .window
      pure (names.map (fun name => ⟨name, .named name⟩) ++ aggregates ++ shared)
    else b.outputFields .window
  return {
    source := .previous
    fields := b.passedFields ++ results
    groupBy := b.keys.map (fun key => .named key.name) ++ names.map .named ++ b.bucketColumn
    having := ← b.groupFilter .window }

def passesOn (field : Field) : Bool :=
  match field.expr with
  | .column none name => name == field.name
  | _ => false

/-- The first field of a stage whose name is that of a column that the rest of the stage reads. The
bucket is exempt, since the grouping names it on purpose. -/
def shadowing? (stage : Stage) : Option Field :=
  (stage.fields.zipIdx.find? fun (field, index) =>
    !passesOn field && field.name != bucketName &&
      (stage.columnsReadBesides index).contains field.name).map (·.1)

/-- Where names of fields are visible beside them, they must not hide columns that are read. -/
def checkVisibility (b : StageBuilder) (stages : List Stage) : Except CompileError Unit :=
  if !b.renderer.dialect.aliasInWhere then .ok ()
  else match stages.findSome? shadowing? with
    | some field => .error (.shadowedColumn field.name b.renderer.dialect.name)
    | none => .ok ()

/-- Without a last stage there is none to test conditions on outputs in. -/
def checkConditions (b : StageBuilder) (layout : Layout) : Except CompileError Unit :=
  if layout.hasLastStage then .ok ()
  else match b.conditions.find? (·.level == .output) with
    | some condition => .error (.unsupported condition.text .filterAfterLastStage)
    | none => .ok ()

def stages (b : StageBuilder) : Layout → Except CompileError (List Stage)
  | .flat => do return [← b.flatStage]
  | .computed => do return [← b.groupStage, ← b.lastStage]
  | .windowed => do return [← b.windowStage, ← b.regroupStage false]
  | .windowedComputed => do return [← b.windowStage, ← b.regroupStage true, ← b.lastStage]

def build (b : StageBuilder) (layout : Layout) : Except CompileError (List Stage) := do
  b.checkConditions layout
  let stages ← b.stages layout
  b.checkVisibility stages
  return stages

end StageBuilder

end Rollup
