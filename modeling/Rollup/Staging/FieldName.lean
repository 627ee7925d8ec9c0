import Rollup.Group.Condition
import Rollup.Group.Shared
import Rollup.Staging.FreshName
import Rollup.Staging.Layout

/-! The names of the fields that hold aggregates and shared expressions between stages.

An aggregate that is an output has the name of the output. An aggregate of a column has the name of
the column, if nothing else in its stage reads the column or has that name. All other aggregates,
and the shared expressions that are no outputs, have fresh names.
-/

set_option autoImplicit false

namespace Rollup

structure NamingScope where
  layout : Layout
  keys : List GroupKey
  outputs : List Output
  conditions : List Condition
  carried : List String
  shared : List SharedExpr

namespace NamingScope

def conditionsAt (scope : NamingScope) (level : Level) : List Condition :=
  scope.conditions.filter (·.level == level)

def readLast (scope : NamingScope) : List Nat :=
  scope.outputs.flatMap (·.expr.aggregates) ++
    (scope.conditionsAt .output).flatMap (·.expr.aggregates)

/-- Whether a later stage reads an aggregate by name. -/
def isField (scope : NamingScope) (index : Nat) (slot : AggregateSlot) : Bool :=
  slot.windowed || (scope.layout.hasLastStage && scope.readLast.contains index)

def outputName? (scope : NamingScope) (index : Nat) : Option String :=
  (scope.outputs.find? (·.kind == .aggregate index)).map (·.name)

def nameAsOutput (scope : NamingScope) (index : Nat) (slot : AggregateSlot) : AggregateSlot :=
  if scope.isField index slot then { slot with name := scope.outputName? index } else slot

def usedNames (scope : NamingScope) : List String :=
  bucketName :: (scope.keys.map (·.name) ++ scope.outputs.map (·.name) ++ scope.carried ++
    scope.shared.filterMap (·.name))

/-- The columns that the grouping or a condition reads from single rows. -/
def readColumns (scope : NamingScope) : List String :=
  scope.keys.map (·.column) ++ (scope.conditionsAt .row).flatMap (·.expr.rowColumns)

/-- The aggregates that are computed once more in a condition or in a shared expression. -/
def inlined (scope : NamingScope) : List Nat :=
  (scope.conditionsAt .group).flatMap (·.expr.aggregates) ++
    scope.shared.flatMap (·.expr.aggregates)

def readers (slots : List AggregateSlot) (column : String) : Nat :=
  slots.countP fun slot => slot.call.columns.contains column

/-- Whether the aggregate at an index can have the name of its column. -/
def canReuse (scope : NamingScope) (slots : List AggregateSlot) (index : Nat) (column : String) :
    Bool :=
  readers slots column == 1 && !scope.inlined.contains index &&
    !scope.readColumns.contains column && !scope.usedNames.contains column &&
    !(slots.filterMap (·.name)).contains column

def reused? (scope : NamingScope) (slots : List AggregateSlot) (index : Nat)
    (slot : AggregateSlot) : Option String :=
  slot.call.column?.filter (scope.canReuse slots index)

def nameSlots (scope : NamingScope) (named : List AggregateSlot) :
    List AggregateSlot → StateM FreshNames (List AggregateSlot)
  | [] => pure named
  | slot :: rest =>
    let index := named.length
    if !scope.isField index slot || slot.name.isSome then scope.nameSlots (named ++ [slot]) rest
    else match scope.reused? (named ++ slot :: rest) index slot with
      | some name => scope.nameSlots (named ++ [{ slot with name := some name }]) rest
      | none => do
        let name ← FreshNames.fresh
        scope.nameSlots (named ++ [{ slot with name := some name }]) rest

/-- A window result must not have the name of a column that is passed on beside it. -/
def renameWindow (scope : NamingScope) (slot : AggregateSlot) : StateM FreshNames AggregateSlot :=
  if slot.windowed && slot.name.any scope.carried.contains then do
    let name ← FreshNames.fresh
    return { slot with name := some name }
  else return slot

def nameShared (shared : SharedExpr) : StateM FreshNames SharedExpr :=
  match shared.name with
  | some _ => pure shared
  | none => do
    let name ← FreshNames.fresh
    return { shared with name := some name }

def assign (scope : NamingScope) (slots : List AggregateSlot) :
    StateM FreshNames (List AggregateSlot × List SharedExpr) := do
  let slots ← scope.nameSlots [] (slots.mapIdx scope.nameAsOutput)
  let slots ← slots.mapM scope.renameWindow
  let shared ← scope.shared.mapM nameShared
  return (slots, shared)

end NamingScope

end Rollup
