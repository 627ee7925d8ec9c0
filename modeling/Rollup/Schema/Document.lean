import Rollup.Schema.Basic
import Rollup.Toml.Document
import Rollup.Toml.Record

/-! Schemas written as TOML documents.

The document has the name of the schema and may have the name of the table, which is the same if it
is missing, the column of time, and lists of dimensions, metrics and derived columns. Columns are
declared in the order of these lists, and no name twice.
-/

set_option autoImplicit false

namespace Rollup

structure DimensionEntry where
  name : String
  dataType : Option String

structure MetricEntry where
  name : String
  dataType : Option String
  aggregator : Option String

structure DerivedEntry where
  name : String
  expression : String

structure SchemaDocument where
  name : String
  table : Option String
  timestamp : Option String
  dimensions : List DimensionEntry
  metrics : List MetricEntry
  derived : List DerivedEntry

namespace SchemaDocument

open Toml

def dimensionEntry? (value : Value) : Option DimensionEntry := do
  match ← fields? false ["name", "type"] value with
  | [some name, type] => return ⟨← name.text?, ← optional? Value.text? type⟩
  | _ => none

def metricEntry? (value : Value) : Option MetricEntry := do
  match ← fields? false ["name", "type", "aggregator"] value with
  | [some name, type, aggregator] =>
    return ⟨← name.text?, ← optional? Value.text? type, ← optional? Value.text? aggregator⟩
  | _ => none

def derivedEntry? (value : Value) : Option DerivedEntry := do
  match ← fields? false ["name", "expression"] value with
  | [some name, some expression] => return ⟨← name.text?, ← expression.text?⟩
  | _ => none

def entries? {α : Type} (read : Value → Option α) (value : Value) : Option (List α) :=
  value.items?.bind fun items => items.mapM read

def keys : List String := ["name", "table", "timestamp", "dimensions", "metrics", "derived"]

def ofMembers? (members : Members) : Option SchemaDocument := do
  if members.any fun entry => !keys.contains entry.1 then none
  let name ← members.lookup "name"
  return {
    name := ← name.text?
    table := ← optional? Value.text? (members.lookup "table")
    timestamp := ← optional? Value.text? (members.lookup "timestamp")
    dimensions := ← defaulted? (entries? dimensionEntry?) [] (members.lookup "dimensions")
    metrics := ← defaulted? (entries? metricEntry?) [] (members.lookup "metrics")
    derived := ← defaulted? (entries? derivedEntry?) [] (members.lookup "derived") }

def parse? (text : String) : Option SchemaDocument := (Toml.parse? text).bind ofMembers?

end SchemaDocument

namespace Schema

def refuseKnown (schema : Schema) (name : String) : Except SchemaError Unit :=
  if (schema.column? name).isSome then .error (.duplicateColumn name) else .ok ()

def readDataType (default : DataType) : Option String → Except SchemaError DataType
  | none => .ok default
  | some name => match DataType.ofName? name with
    | some dataType => .ok dataType
    | none => .error (.unknownDataType name)

def readAggregator (metric : String) : Option String → Except SchemaError Aggregate
  | none => .ok .sum
  | some name => match Aggregate.ofName? name with
    | some aggregator => .ok aggregator
    | none => .error (.unknownAggregator metric name)

def declareDimension (schema : Schema) (entry : DimensionEntry) : Except SchemaError Schema := do
  schema.refuseKnown entry.name
  let dataType ← readDataType .string entry.dataType
  return schema.addDimension ⟨entry.name, dataType⟩

def declareMetric (schema : Schema) (entry : MetricEntry) : Except SchemaError Schema := do
  schema.refuseKnown entry.name
  let dataType ← readDataType .int entry.dataType
  let aggregator ← readAggregator entry.name entry.aggregator
  return schema.addMetric ⟨entry.name, dataType, aggregator⟩

def defineDerived (schema : Schema) (name text : String) : Except SchemaError Schema :=
  match Expr.parse text with
  | .ok expr => .ok (schema.addDerived ⟨name, text, expr⟩)
  | .error source => .error (.invalidExpression name source)

def declareDerived (schema : Schema) (entry : DerivedEntry) : Except SchemaError Schema := do
  schema.refuseKnown entry.name
  schema.defineDerived entry.name entry.expression

def ofDocument (document : SchemaDocument) : Except SchemaError Schema := do
  let start : Schema := {
    name := document.name
    table := document.table.getD document.name
    timestamp := document.timestamp.getD "timestamp" }
  let schema ← document.dimensions.foldlM declareDimension start
  let schema ← document.metrics.foldlM declareMetric schema
  document.derived.foldlM declareDerived schema

def parse (text : String) : Except SchemaError Schema :=
  match SchemaDocument.parse? text with
  | none => .error .malformed
  | some document => ofDocument document

end Schema

end Rollup
