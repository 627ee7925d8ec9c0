import Rollup.FirstSeen
import Rollup.Sql.Expr
import Rollup.Sql.Query

/-! Plans: statements as a sequence of stages.

The first stage reads a table, and every later one reads the rows of the stage before it. Sorting
and cutting off rows belong to the last stage.
-/

set_option autoImplicit false

namespace Rollup

structure Field where
  name : String
  expr : Sql.Expr
  deriving Repr

inductive StageSource where
  | table (name : String)
  | previous
  deriving DecidableEq, Repr

structure Stage where
  source : StageSource
  fields : List Field := []
  filter : Option Sql.Expr := none
  groupBy : List Sql.Expr := []
  having : Option Sql.Expr := none
  orderBy : List (Sql.SortKey Sql.Expr) := []
  rows : Option Sql.RowWindow := none
  deriving Repr

namespace Stage

def names (stage : Stage) : List String := stage.fields.map (·.name)

def field? (stage : Stage) (name : String) : Option Field :=
  stage.fields.find? fun field => field.name == name

def isGrouped (stage : Stage) : Bool := !stage.groupBy.isEmpty

def inputColumns (stage : Stage) : List String :=
  firstSeen (stage.fields.flatMap fun field => field.expr.columns)

def filterColumns (stage : Stage) : List String :=
  match stage.source, stage.filter with
  | .table _, some condition => condition.columns
  -- The condition of a later stage may name fields of its own.
  | _, _ => []

def havingColumns (stage : Stage) : List String :=
  match stage.having with
  | some condition => condition.columns
  | none => []

/-- The columns that are read anywhere but in the field at an index. -/
def columnsReadBesides (stage : Stage) (index : Nat) : List String :=
  firstSeen
    ((stage.fields.eraseIdx index).flatMap (fun field => field.expr.columns) ++
      stage.groupBy.flatMap (·.columns) ++ stage.havingColumns ++ stage.filterColumns)

def itemOf (field : Field) : Sql.SelectItem :=
  match field.expr with
  | .column none name =>
    -- A column under its own name needs no alias.
    if name = field.name then ⟨field.expr, none⟩ else ⟨field.expr, some field.name⟩
  | _ => ⟨field.expr, some field.name⟩

def body (stage : Stage) : Sql.Select where
  items := stage.fields.map itemOf
  filter := stage.filter
  groupBy := stage.groupBy
  having := stage.having
  orderBy := stage.orderBy
  rows := stage.rows.getD .all

end Stage

structure Plan where
  stages : List Stage
  deriving Repr

namespace Plan

def depth (plan : Plan) : Nat := plan.stages.length

def innermost? (plan : Plan) : Option Stage := plan.stages.head?

def outermost? (plan : Plan) : Option Stage := plan.stages.getLast?

/-- Put stages around a statement, in which `aliases` nested statements have been named. -/
def nest (inner : Option Sql.Query) (aliases : Nat) : List Stage → Option Sql.Query
  | [] => inner
  | stage :: rest =>
    match stage.source, inner with
    | .table name, _ => nest (some (.ofTable stage.body name none)) aliases rest
    | .previous, none => nest (some (.bare stage.body)) aliases rest
    | .previous, some query =>
      nest (some (.ofQuery stage.body query s!"tbl{aliases + 1}")) (aliases + 1) rest

def query? (plan : Plan) : Option Sql.Query := nest none 0 plan.stages

def toSql (d : Sql.Dialect) (pretty : Bool) (plan : Plan) : String :=
  match plan.query? with
  | none => ""
  | some query => if pretty then query.pretty d else query.compact d

end Plan

end Rollup
