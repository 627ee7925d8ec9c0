import Rollup.Group.Aggregation
import Rollup.Schema.Basic

/-! Group keys and outputs: the columns of the result.

The keys of a group are the dimensions that a query groups by and those that it selects on their
own. Every selector is an output, which is a group key, a single aggregate, something that needs no
aggregate, or something computed from aggregates.
-/

set_option autoImplicit false

namespace Rollup

structure GroupKey where
  column : String
  name : String
  deriving DecidableEq, Repr

inductive OutputKind where
  | key (index : Nat)
  | aggregate (index : Nat)
  | scalar
  | computed
  deriving DecidableEq, Repr

structure Output where
  name : String
  expr : GroupExpr
  kind : OutputKind
  deriving Repr

def bucketName : String := "_timestamp"

def Output.isKey (output : Output) : Bool :=
  match output.kind with
  | .key _ => true
  | _ => false

structure Selected where
  name : String
  expr : Expr
  deriving Repr

def keyOf? (keys : List GroupKey) (column : String) : Option Nat :=
  keys.findIdx? (·.column == column)

def addKey (schema : Schema) (keys : List GroupKey) (name : String) :
    Except CompileError (List GroupKey) :=
  match schema.column? name with
  | some (.dimension _) =>
    .ok (if (keyOf? keys name).isSome then keys else keys ++ [⟨name, name⟩])
  | some _ => .error (.unsupported name .notADimension)
  | none => .error (.unknownColumn name)

def selectedDimension? (schema : Schema) (selected : Selected) : Option String :=
  match selected.expr with
  | .column name => match schema.column? name with
    | some (.dimension _) => some name
    | _ => none
  | _ => none

/-- The name of a key in the result: that of the first selector that selects it. -/
def namedBy (selected : List (String × String)) (key : GroupKey) : GroupKey :=
  match selected.find? fun entry => entry.1 == key.column with
  | some (_, name) => ⟨key.column, name⟩
  | none => key

/-- The keys of the groups: the dimensions to group by, then those that are only selected. -/
def groupKeys (schema : Schema) (groupBy : List String) (selected : List Selected) :
    Except CompileError (List GroupKey) := do
  let explicit ← groupBy.foldlM (addKey schema) []
  let bare := selected.filterMap fun s =>
    (selectedDimension? schema s).map fun name => (name, s.name)
  let all := bare.foldl
    (fun keys (column, _) =>
      if (keyOf? keys column).isSome then keys else keys ++ [⟨column, column⟩])
    explicit
  return all.map (namedBy bare)

/-- In selectors a column outside of aggregates stands for the group key it is. -/
def keyReference (keys : List GroupKey) (e : Expr) (column : String) :
    Except CompileError GroupExpr :=
  match keyOf? keys column with
  | some index => .ok (.reference (.key index))
  | none => .error (.ungroupedColumn e.render column)

def outputKind (keys : List GroupKey) (name : String) (e : GroupExpr) : OutputKind :=
  match e with
  | .reference (.aggregate index) => .aggregate index
  | .reference (.key index) =>
    if (keys[index]?).any (·.name == name) then .key index else .scalar
  | e => if e.hasAggregate then .computed else .scalar

def liftOutput (registry : Registry) (keys : List GroupKey) (selected : Selected) :
    Collecting Output := do
  let e ← lift registry (keyReference keys selected.expr) selected.expr
  return ⟨selected.name, e, outputKind keys selected.name e⟩

def distinctNames (seen : List String) : List String → Except CompileError (List String)
  | [] => .ok seen
  | name :: rest =>
    if seen.contains name then .error (.duplicateOutputName name)
    else distinctNames (seen ++ [name]) rest

def outputNames (keys : List GroupKey) (outputs : List Output) (bucketed : Bool) :
    Except CompileError (List String) :=
  distinctNames (if bucketed then [bucketName] else [])
    (keys.map (·.name) ++ (outputs.filter (!·.isKey)).map (·.name))

end Rollup
