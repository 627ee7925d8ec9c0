import Rollup.Expr.Parser
import Rollup.Function.Aggregate
import Rollup.Schema.DataType

/-! Schemas: the columns of a table of metrics.

A table has a column of time, dimensions to group by and metrics to aggregate. Derived columns are
expressions with a name. Where several columns share a name, the one that is stored comes first.
-/

set_option autoImplicit false

namespace Rollup

structure Dimension where
  name : String
  dataType : DataType
  deriving DecidableEq, Repr

structure Metric where
  name : String
  dataType : DataType
  /-- The aggregate of a metric that is selected on its own. -/
  aggregator : Aggregate
  deriving DecidableEq, Repr

structure DerivedColumn where
  name : String
  text : String
  expr : Expr
  deriving Repr

structure Schema where
  name : String
  table : String
  timestamp : String := "timestamp"
  dimensions : List Dimension := []
  metrics : List Metric := []
  derived : List DerivedColumn := []
  deriving Repr

inductive Column where
  | timestamp
  | dimension (column : Dimension)
  | metric (column : Metric)
  | derived (column : DerivedColumn)
  deriving Repr

/-- Put an entry in place of the first one with the same name, or at the end. -/
def putNamed {α : Type} (nameOf : α → String) (entry : α) : List α → List α
  | [] => [entry]
  | other :: rest =>
    if nameOf other = nameOf entry then entry :: rest else other :: putNamed nameOf entry rest

namespace Schema

def addDimension (schema : Schema) (column : Dimension) : Schema :=
  { schema with dimensions := putNamed (·.name) column schema.dimensions }

def addMetric (schema : Schema) (column : Metric) : Schema :=
  { schema with metrics := putNamed (·.name) column schema.metrics }

def addDerived (schema : Schema) (column : DerivedColumn) : Schema :=
  { schema with derived := putNamed (·.name) column schema.derived }

def dimension? (schema : Schema) (name : String) : Option Dimension :=
  schema.dimensions.find? (·.name == name)

def metric? (schema : Schema) (name : String) : Option Metric :=
  schema.metrics.find? (·.name == name)

def derived? (schema : Schema) (name : String) : Option DerivedColumn :=
  schema.derived.find? (·.name == name)

def column? (schema : Schema) (name : String) : Option Column :=
  if name = schema.timestamp then some .timestamp
  else match schema.dimension? name with
    | some column => some (.dimension column)
    | none => match schema.metric? name with
      | some column => some (.metric column)
      | none => (schema.derived? name).map .derived

end Schema

def Column.isStored : Column → Bool
  | .derived _ => false
  | _ => true

def Column.dataType? : Column → Option DataType
  | .timestamp => some .timestamp
  | .dimension column => some column.dataType
  | .metric column => some column.dataType
  | .derived _ => none

namespace Schema

def isStored (schema : Schema) (name : String) : Bool :=
  (schema.column? name).any (·.isStored)

def dataType? (schema : Schema) (name : String) : Option DataType :=
  (schema.column? name).bind (·.dataType?)

def names (schema : Schema) : List String :=
  schema.timestamp :: (schema.dimensions.map (·.name) ++ schema.metrics.map (·.name) ++
    schema.derived.map (·.name))

end Schema

/-! ## Errors -/

inductive SchemaError where
  | fileNotFound (path : String)
  | unreadable (reason : String)
  | malformed
  | duplicateColumn (name : String)
  | invalidExpression (column : String) (source : ParseError)
  | unknownColumn (column reference : String)
  | unknownFunction (column function : String)
  | unknownDataType (name : String)
  | unknownAggregator (metric aggregator : String)
  | derivedCycle (names : List String)
  deriving DecidableEq, Repr

def SchemaError.message : SchemaError → String
  | .fileNotFound path => s!"Schema file not found: {path}"
  | .unreadable reason => s!"Failed to read schema file: {reason}"
  | .malformed => "Failed to parse schema file"
  | .duplicateColumn name => s!"Column `{name}` is declared more than once"
  | .invalidExpression column source =>
    let reason := source.message
    s!"Derived column `{column}` has an invalid expression: {reason}"
  | .unknownColumn column reference =>
    s!"Derived column `{column}` references unknown column `{reference}`"
  | .unknownFunction column function =>
    s!"Derived column `{column}` calls unknown function `{function}`"
  | .unknownDataType name => s!"Unknown data type `{name}`"
  | .unknownAggregator metric aggregator =>
    s!"Metric `{metric}` declares unknown aggregator `{aggregator}`"
  | .derivedCycle names => "Derived columns form a cycle: " ++ " -> ".intercalate names

end Rollup
