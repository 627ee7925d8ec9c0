import Rollup.Group.Condition
import Rollup.Group.Shared
import Rollup.Sql.Dialect
import Rollup.Staging.Layout

/-! Writing the expressions of a query as expressions of statements.

What a reference turns into depends on the stage it is read in. Tests for equality with the null
value become null tests, since they could never be true.
-/

set_option autoImplicit false

namespace Rollup

/-- The rows that an expression is computed from. -/
inductive Scope where
  | table
  -- Rows of the table with window results.
  | window
  | groups
  deriving DecidableEq, Repr

structure Renderer where
  dialect : Sql.Dialect
  keys : List GroupKey
  slots : List AggregateSlot
  shared : List SharedExpr
  outputs : List Output
  timeColumn : String
  bucketSeconds : Option Int

def Literal.toSql : Literal → Sql.Expr
  | .int n => .literal (.int n)
  | .float x => .literal (.float x)
  | .string text => .literal (.string text)
  | .bool value => .literal (.bool value)
  | .null => .literal .null
  | .duration d => .literal (.int d.seconds)
  | .size s => .literal (.int s.value)
  | .percentage p => .literal (.float p.fraction)

def BinaryOp.toSql : BinaryOp → Sql.BinaryOp
  | .add => .plus
  | .sub => .minus
  | .mul => .times
  | .div => .divide
  | .mod => .modulo
  | .eq => .eq
  | .ne => .ne
  | .lt => .lt
  | .lte => .lte
  | .gt => .gt
  | .gte => .gte
  | .like => .like
  | .notLike => .notLike
  | .and => .and
  | .or => .or

def UnaryOp.toSql : UnaryOp → Sql.UnaryOp
  | .not => .not
  | .neg => .minus

namespace Renderer

def isNull : Sql.Expr → Bool
  | .literal .null => true
  | _ => false

def equality (op : Sql.BinaryOp) (negated : Bool) (left right : Sql.Expr) : Sql.Expr :=
  if isNull right then .isNull left negated
  else if isNull left then .isNull right negated
  else .binary op left right

def combine (op : BinaryOp) (left right : Sql.Expr) : Sql.Expr :=
  match op with
  | .eq => equality .eq false left right
  | .ne => equality .ne true left right
  | op => .binary op.toSql left right

mutual

def rowExpr : Expr → Except CompileError Sql.Expr
  | .literal value => .ok value.toSql
  | .column name => .ok (.named name)
  | .placeholder name => .error (.unresolvedPlaceholder name)
  | .binary op left right => do
    let left ← rowExpr left
    let right ← rowExpr right
    return combine op left right
  | .unary op operand => do
    let operand ← rowExpr operand
    return .unary op.toSql operand
  | .inList operand items negated => do
    let operand ← rowExpr operand
    let items ← rowExprs items
    return .inList operand items negated
  | .call name args => do
    let args ← rowExprs args
    return .apply name args

def rowExprs : List Expr → Except CompileError (List Sql.Expr)
  | [] => .ok []
  | e :: rest => do
    let e ← rowExpr e
    let rest ← rowExprs rest
    return e :: rest

end

mutual

def groupExpr (reference : Reference → Except CompileError Sql.Expr) :
    GroupExpr → Except CompileError Sql.Expr
  | .reference target => reference target
  | .literal value => .ok value.toSql
  | .binary op left right => do
    let left ← groupExpr reference left
    let right ← groupExpr reference right
    return combine op left right
  | .unary op operand => do
    let operand ← groupExpr reference operand
    return .unary op.toSql operand
  | .inList operand items negated => do
    let operand ← groupExpr reference operand
    let items ← groupExprs reference items
    return .inList operand items negated
  | .call name args => do
    let args ← groupExprs reference args
    return .apply name args

def groupExprs (reference : Reference → Except CompileError Sql.Expr) :
    List GroupExpr → Except CompileError (List Sql.Expr)
  | [] => .ok []
  | e :: rest => do
    let e ← groupExpr reference e
    let rest ← groupExprs reference rest
    return e :: rest

end

def target {α : Type} (items : List α) (index : Nat) : Except CompileError α :=
  match items[index]? with
  | some item => .ok item
  | none => .error (.unsupported (toString index) .danglingReference)

def slotName (slot : AggregateSlot) : Except CompileError String :=
  match slot.name with
  | some name => .ok name
  | none => .error (.unsupported slot.call.render .aggregateWithoutField)

def sharedName (index : Nat) (shared : SharedExpr) : Except CompileError String :=
  match shared.name with
  | some name => .ok name
  | none => .error (.unsupported (toString index) .expressionWithoutField)

def capability (r : Renderer) (call : AggregateCall) :
    Option Sql.Expr → Except CompileError Sql.Expr
  | some e => .ok e
  | none => .error (.dialectCapability r.dialect.name call.render)

def aggregateOf (r : Renderer) (call : AggregateCall) (value : Sql.Expr) :
    Except CompileError Sql.Expr :=
  match call.func with
  | .sum => .ok (.apply "sum" [value])
  | .count => .ok (.apply "count" [value])
  | .avg => .ok (.apply "avg" [value])
  | .min => .ok (.apply "min" [value])
  | .max => .ok (.apply "max" [value])
  | .cardinality => .ok (r.dialect.countDistinct value)
  | .groupConcat => r.capability call (r.dialect.join value)
  | .rate => match r.bucketSeconds with
    | some seconds => .ok (Sql.perSecond (.apply "sum" [value]) seconds)
    | none => .error (.unsupported call.render .rateWithoutInterval)
  | .first => r.capability call (r.dialect.pick false value (.named r.timeColumn))
  | .last => r.capability call (r.dialect.pick true value (.named r.timeColumn))

def aggregate (r : Renderer) (call : AggregateCall) : Except CompileError Sql.Expr :=
  match call.arg with
  | some arg => do
    let value ← rowExpr arg
    r.aggregateOf call value
  | none => match call.func with
    | .count => .ok (.apply "count" [.star none])
    | _ => .error (.unsupported call.render .missingArgument)

def windowCall (r : Renderer) (call : AggregateCall) (partitionBy : List Sql.Expr) :
    Except CompileError Sql.Expr :=
  match call.arg with
  | some arg => do
    let value ← rowExpr arg
    return Sql.pickWindow (call.func == .last) value partitionBy (.named r.timeColumn)
  | none => .error (.unsupported call.render .missingArgument)

def keyExpr (key : GroupKey) : Scope → Sql.Expr
  | .table => .named key.column
  | .window | .groups => .named key.name

/-- An aggregate as it is read in a scope: computed there, or by the name of its field. -/
def slotExpr (r : Renderer) (slot : AggregateSlot) (scope : Scope) :
    Except CompileError Sql.Expr :=
  if scope == .groups || slot.windowed then (slotName slot).map .named
  else r.aggregate slot.call

def plainReference (r : Renderer) (scope : Scope) : Reference → Except CompileError Sql.Expr
  | .column name => .ok (.named name)
  | .key index => (target r.keys index).map fun key => keyExpr key scope
  | .aggregate index => (target r.slots index).bind fun slot => r.slotExpr slot scope
  | .shared index | .output index => .error (.unsupported (toString index) .danglingReference)

def sharedExpr (r : Renderer) (scope : Scope) (index : Nat) : Except CompileError Sql.Expr := do
  let shared ← target r.shared index
  if scope == .groups then (sharedName index shared).map .named
  else groupExpr (r.plainReference scope) shared.expr

def innerReference (r : Renderer) (scope : Scope) : Reference → Except CompileError Sql.Expr
  | .shared index => r.sharedExpr scope index
  | other => r.plainReference scope other

/-- An output in a condition: by its name where that is visible, or else its expression. -/
def outputExpr (r : Renderer) (scope : Scope) (index : Nat) : Except CompileError Sql.Expr := do
  let output ← target r.outputs index
  if scope != .groups then .error (.unsupported output.name .outputBeforeAggregation)
  else if r.dialect.aliasInWhere then return .named output.name
  else groupExpr (r.innerReference scope) output.expr

def reference (r : Renderer) (scope : Scope) : Reference → Except CompileError Sql.Expr
  | .output index => r.outputExpr scope index
  | other => r.innerReference scope other

def render (r : Renderer) (scope : Scope) (e : GroupExpr) : Except CompileError Sql.Expr :=
  groupExpr (r.reference scope) e

end Renderer

end Rollup
