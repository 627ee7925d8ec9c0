import Rollup.Group.Output
import Rollup.Group.Shared

/-! The data types of the columns of a result. -/

set_option autoImplicit false

namespace Rollup

def Literal.dataType : Literal → DataType
  | .int _ | .duration _ | .size _ => .int
  | .float _ | .percentage _ => .float
  | .bool _ => .bool
  | .string _ | .null => .string

/-- Quotients are floats, other arithmetic widens, and all else is a test. -/
def BinaryOp.dataType (op : BinaryOp) (left right : DataType) : DataType :=
  if op = .div then .float else if op.isArithmetic then left.widen right else .bool

def UnaryOp.dataType (op : UnaryOp) (operand : DataType) : DataType :=
  match op with
  | .not => .bool
  | .neg => operand

def callType (name : String) (args : List DataType) : DataType :=
  let word := Text.asciiLower name
  if word = "length" then .int
  else if word = "lower" ∨ word = "upper" then .string
  else if word = "round" ∧ 1 < args.length then .float
  else args.head?.getD .float

def Schema.columnType (schema : Schema) (name : String) : DataType :=
  (schema.dataType? name).getD .string

mutual

def Expr.dataType (schema : Schema) : Expr → DataType
  | .literal value => value.dataType
  | .column name => schema.columnType name
  | .placeholder _ => .int
  | .binary op left right => op.dataType (left.dataType schema) (right.dataType schema)
  | .unary op operand => op.dataType (operand.dataType schema)
  | .inList _ _ _ => .bool
  | .call name args => callType name (Expr.dataTypes schema args)

def Expr.dataTypes (schema : Schema) : List Expr → List DataType
  | [] => []
  | e :: rest => e.dataType schema :: Expr.dataTypes schema rest

end

def AggregateCall.dataType (schema : Schema) (call : AggregateCall) : DataType :=
  match call.func with
  | .count | .cardinality => .int
  | .avg | .rate => .float
  | .groupConcat => .string
  | .sum | .min | .max | .first | .last =>
    match call.arg with
    | some arg => arg.dataType schema
    | none => .int

mutual

def GroupExpr.dataType (typeOf : Reference → DataType) : GroupExpr → DataType
  | .reference target => typeOf target
  | .literal value => value.dataType
  | .binary op left right => op.dataType (left.dataType typeOf) (right.dataType typeOf)
  | .unary op operand => op.dataType (operand.dataType typeOf)
  | .inList _ _ _ => .bool
  | .call name args => callType name (GroupExpr.dataTypes typeOf args)

def GroupExpr.dataTypes (typeOf : Reference → DataType) : List GroupExpr → List DataType
  | [] => []
  | e :: rest => e.dataType typeOf :: GroupExpr.dataTypes typeOf rest

end

structure TypeScope where
  schema : Schema
  keys : List GroupKey
  aggregates : List AggregateCall
  shared : List SharedExpr

namespace TypeScope

def plainType (scope : TypeScope) : Reference → DataType
  | .column name => scope.schema.columnType name
  | .key index => match scope.keys[index]? with
    | some key => scope.schema.columnType key.column
    | none => .float
  | .aggregate index => match scope.aggregates[index]? with
    | some call => call.dataType scope.schema
    | none => .float
  -- Shared parts refer to no shared parts. Outputs count as floats, as does what does not exist.
  | .shared _ | .output _ => .float

def referenceType (scope : TypeScope) : Reference → DataType
  | .shared index => match scope.shared[index]? with
    | some shared => shared.expr.dataType scope.plainType
    | none => .float
  | target => scope.plainType target

def typeOf (scope : TypeScope) (e : GroupExpr) : DataType := e.dataType scope.referenceType

end TypeScope

end Rollup
