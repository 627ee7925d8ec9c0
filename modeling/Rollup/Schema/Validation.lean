import Rollup.Expr.Traversal
import Rollup.Function.Registry
import Rollup.Schema.Basic

/-! Checking the definitions of derived columns.

One derived column refers to another if it names it. A cycle is a largest group of derived columns
of which each leads to each, itself included, by one or more references.
-/

set_option autoImplicit false

namespace Rollup.Schema

def derivedNames (schema : Schema) : List String := schema.derived.map (·.name)

def references (schema : Schema) (name : String) : List String :=
  match schema.derived? name with
  | none => []
  | some column => column.expr.columns.filter schema.derivedNames.contains

/-- The names among `remaining` that references lead to from `pending`, in at most so many steps
as the first argument says. A name is taken once, so as many steps as there are names suffice. -/
def gather (schema : Schema) : Nat → List String → List String → List String
  | 0, _, _ => []
  | steps + 1, remaining, pending =>
    match pending.find? remaining.contains with
    | none => []
    | some name =>
      name :: gather schema steps (remaining.erase name) (schema.references name ++ pending)

def reachable (schema : Schema) (name : String) : List String :=
  gather schema schema.derived.length schema.derivedNames (schema.references name)

def leadsTo (schema : Schema) (first last : String) : Bool :=
  (schema.reachable first).contains last

/-- The cycle that a derived column belongs to, in the order of declaration. -/
def cycleOf? (schema : Schema) (name : String) : Option (List String) :=
  if schema.leadsTo name name then
    some (schema.derivedNames.filter fun other =>
      schema.leadsTo name other && schema.leadsTo other name)
  else none

def cycles (schema : Schema) : List (List String) :=
  (firstSeen (schema.derivedNames.filterMap schema.cycleOf?)).mergeSort fun a b => !decide (b < a)

/-- A derived column names known columns and calls known functions. -/
def checkReferences (schema : Schema) (registry : Registry) (column : DerivedColumn) :
    Except SchemaError Unit :=
  match column.expr.columns.find? fun name => (schema.column? name).isNone with
  | some reference => .error (.unknownColumn column.name reference)
  | none =>
    match column.expr.calls.find? fun name => (registry.get? name).isNone with
    | some function => .error (.unknownFunction column.name function)
    | none => .ok ()

def validate (schema : Schema) (registry : Registry) : Except SchemaError Unit :=
  match schema.derived.forM (checkReferences schema registry) with
  | .error e => .error e
  | .ok () =>
    match schema.cycles with
    | [] => .ok ()
    | cycle :: _ => .error (.derivedCycle cycle)

end Rollup.Schema
