import Rollup.Group.Typing
import Rollup.Staging.Build
import Rollup.Staging.FieldName

/-! Compiling queries to statements.

A query is resolved against a schema, its aggregates are collected, and the outputs, the conditions
and the order are laid out in stages. The result is a plan together with the columns of the rows
that it selects.
-/

set_option autoImplicit false

namespace Rollup

structure OutputColumn where
  name : String
  dataType : DataType
  deriving DecidableEq, Repr

structure CompiledQuery where
  sql : String
  columns : List OutputColumn
  plan : Plan
  deriving Repr

structure Compiler where
  schema : Schema
  dialect : Sql.Dialect
  registry : Registry := .builtin

/-- A query whose names are resolved and whose aggregates are collected. -/
structure Analysis where
  keys : List GroupKey
  outputs : List Output
  conditions : List Condition
  calls : List AggregateCall
  names : List String

namespace Compiler

def timeColumn (c : Compiler) (query : Query) : String :=
  (query.interval.bind (·.timeColumn)).getD c.schema.timestamp

def bucketSeconds (query : Query) : Except CompileError (Option Int) :=
  match query.interval with
  | none => .ok none
  | some interval => match interval.bucketSeconds with
    | .ok seconds => .ok (some seconds)
    | .error fault => .error (.invalidInterval fault)

def timeRange (query : Query) (column : String) (seconds : Option Int) : Option TimeRange :=
  query.interval.map fun interval =>
    ⟨interval.start, interval.stop, column, if interval.step.isSome then seconds else none⟩

def isBucketed (query : Query) : Bool := query.interval.any fun interval => interval.step.isSome

def select (resolver : Resolver) (selector : Selector) : Except CompileError Selected :=
  match selector.outputName? with
  | none => .error (.ambiguousOutputName selector.expr.render)
  | some name => do
    let e ← resolver.resolve selector.expr
    return ⟨name, resolver.aggregateMetrics e⟩

/-- Resolve the selectors and the filter of a query and collect their aggregates. -/
def analyze (c : Compiler) (query : Query) (resolver : Resolver) :
    Except CompileError Analysis := do
  let selected ← query.selectors.mapM (select resolver)
  let keys ← groupKeys c.schema query.groupBy selected
  let (outputs, calls) ← (selected.mapM (liftOutput c.registry keys)).run []
  let names ← outputNames keys outputs (isBucketed query)
  let scope : FilterScope := ⟨resolver, keys, outputs⟩
  let (conditions, calls) ← (scope.conditions query.filter).run calls
  return ⟨keys, outputs, conditions, calls, names⟩

def slots (c : Compiler) (calls : List AggregateCall) : List AggregateSlot :=
  -- What the database has no aggregate for is computed by a window function.
  calls.map fun call => ⟨call, call.func.picksByTime && c.dialect.windowed call.func, none⟩

/-- Whether an output contains an aggregate that is no window function. -/
def selectsAggregate (slots : List AggregateSlot) (output : Output) : Bool :=
  output.expr.aggregates.any fun index => (slots[index]?).any (!·.windowed)

def layout (slots : List AggregateSlot) (outputs : List Output) : Layout :=
  .choose (slots.any (·.windowed)) (outputs.any (·.isComputed))
    (outputs.any (selectsAggregate slots))

def slotColumns (timeColumn : String) (slot : AggregateSlot) : List String :=
  slot.call.columns ++ (if slot.call.func.picksByTime then [timeColumn] else [])

/-- The columns that a window stage passes on for the aggregates of the stage above it. -/
def carriedColumns (keys : List GroupKey) (slots : List AggregateSlot) (timeColumn : String) :
    Except CompileError (List String) :=
  let read := firstSeen ((slots.filter (!·.windowed)).flatMap (slotColumns timeColumn))
  let carried := read.filter fun column => !keys.contains ⟨column, column⟩
  match keys.find? fun key => carried.contains key.name with
  | some key => .error (.unsupported key.name .keyHidesColumn)
  | none => .ok carried

def sortKey (names : List String) (order : OrderBy) :
    Except CompileError (Sql.SortKey Sql.Expr) :=
  if names.contains order.name then
    .ok ⟨.named order.name, some (if order.descending then .descending else .ascending)⟩
  else .error (.unknownOutput order.name)

-- An offset of zero is none.
def rowWindow (limit : Limit) : Sql.RowWindow :=
  ⟨some limit.limit, if limit.offset = 0 then none else some limit.offset⟩

def finish (orderBy : List (Sql.SortKey Sql.Expr)) (rows : Option Sql.RowWindow) :
    List Stage → List Stage
  | [] => []
  | [last] => [{ last with orderBy, rows }]
  | stage :: next :: rest => stage :: finish orderBy rows (next :: rest)

def outputColumns (scope : TypeScope) (outputs : List Output) (bucketed : Bool) :
    List OutputColumn :=
  (if bucketed then [⟨bucketName, .int⟩] else []) ++
    scope.keys.mapIdx (fun index key => ⟨key.name, scope.typeOf (.reference (.key index))⟩) ++
    (outputs.filter (!·.isKey)).map fun output => ⟨output.name, scope.typeOf output.expr⟩

def layOut (c : Compiler) (query : Query) (seconds : Option Int) (a : Analysis) :
    Except CompileError (Plan × List OutputColumn) := do
  let timeColumn := c.timeColumn query
  let slots := c.slots a.calls
  let layout := layout slots a.outputs
  let (outputs, shared) :=
    if layout.hasLastStage then shareExprs a.outputs else (a.outputs, [])
  let carried ← if layout.isWindowed then carriedColumns a.keys slots timeColumn else pure []
  let naming : NamingScope := ⟨layout, a.keys, outputs, a.conditions, carried, shared⟩
  let taken := FreshNames.ofTaken (c.schema.names ++ a.names)
  let ((slots, shared), _) := (naming.assign slots).run taken
  let orderBy ← query.orderBy.mapM (sortKey a.names)
  let builder : StageBuilder := {
    renderer := ⟨c.dialect, a.keys, slots, shared, outputs, timeColumn, seconds⟩
    table := c.schema.table
    conditions := a.conditions
    time := timeRange query timeColumn seconds
    carried }
  let stages ← builder.build layout
  let types : TypeScope := ⟨c.schema, a.keys, a.calls, shared⟩
  return (⟨finish orderBy (query.limit.map rowWindow) stages⟩,
    outputColumns types outputs (isBucketed query))

/-- The plan of a query, and the columns of its rows. -/
def planWithColumns (c : Compiler) (query : Query) :
    Except CompileError (Plan × List OutputColumn) := do
  if query.selectors.isEmpty then throw .noSelectors
  let timeColumn := c.timeColumn query
  if !c.schema.isStored timeColumn then throw (.unknownColumn timeColumn)
  let seconds ← bucketSeconds query
  let analysis ← c.analyze query ⟨c.schema, c.registry, seconds⟩
  c.layOut query seconds analysis

def plan (c : Compiler) (query : Query) : Except CompileError Plan := do
  let (plan, _) ← c.planWithColumns query
  return plan

def compile (c : Compiler) (query : Query) (pretty : Bool) :
    Except CompileError CompiledQuery := do
  let (plan, columns) ← c.planWithColumns query
  return ⟨plan.toSql c.dialect pretty, columns, plan⟩

end Compiler

end Rollup
