import Rollup.Compile.Error
import Rollup.Expr.Traversal
import Rollup.Function.Registry
import Rollup.Schema.Basic

/-! Resolving the names in expressions.

In a resolved expression all columns are stored ones, no placeholder is left, and every call is one
that the registry accepts, with no aggregate inside another. Definitions of derived columns are put
in the place of their names.
-/

set_option autoImplicit false

namespace Rollup

structure Resolver where
  schema : Schema
  registry : Registry
  bucketSeconds : Option Int

namespace Resolver

/-- The placeholder that stands for the length of a bucket in seconds. -/
def intervalPlaceholder : String := "interval"

def placeholderValue (r : Resolver) (name : String) : Except CompileError Literal :=
  match r.bucketSeconds with
  | none => .error (.unresolvedPlaceholder name)
  | some seconds =>
    if name = intervalPlaceholder then .ok (.int seconds) else .error (.unresolvedPlaceholder name)

def cycleFrom (stack : List String) (name : String) : List String :=
  stack.dropWhile (· != name) ++ [name]

/-- Put definitions in the place of derived columns and values in the place of placeholders. The
stack holds the derived columns that are being defined. No more of them can be in definition at
once than there are, which the first argument counts down. -/
def inlineWithin (r : Resolver) : Nat → List String → Expr → Except CompileError Expr
  | depth, stack, e => e.transformM fun
    | .placeholder name => (r.placeholderValue name).map .literal
    | .column name =>
      match r.schema.column? name with
      | none => .error (.unknownColumn name)
      | some (.derived column) =>
        if stack.contains name then .error (.derivedCycle (cycleFrom stack name))
        else match depth with
          | 0 => .error (.derivedCycle (stack ++ [name]))
          | depth + 1 => inlineWithin r depth (stack ++ [name]) column.expr
      | some _ => .ok (.column name)
    | other => .ok other

def inline (r : Resolver) (e : Expr) : Except CompileError Expr :=
  r.inlineWithin r.schema.derived.length [] e

mutual

/-- Refuse unknown functions, wrong numbers of arguments, and aggregates inside the aggregate with
the given text. -/
def checkCalls (r : Resolver) (enclosing : Option String) : Expr → Except CompileError Unit
  | .literal _ | .column _ | .placeholder _ => .ok ()
  | .binary _ left right => do
    r.checkCalls enclosing left
    r.checkCalls enclosing right
  | .unary _ operand => r.checkCalls enclosing operand
  | .inList operand items _ => do
    r.checkCalls enclosing operand
    r.checkCallsEach enclosing items
  | .call name args =>
    match r.registry.get? name with
    | none => .error (.unknownFunction name)
    | some spec =>
      let text := (Expr.call name args).render
      if !spec.accepts args.length then
        .error (.unsupported text (.argumentCount spec.name spec.minArgs spec.maxArgs))
      else match spec.kind, enclosing with
        | .aggregate _, some outer => .error (.nestedAggregate outer text)
        | .aggregate _, none => r.checkCallsEach (some text) args
        | .scalar, _ => r.checkCallsEach enclosing args

def checkCallsEach (r : Resolver) (enclosing : Option String) :
    List Expr → Except CompileError Unit
  | [] => .ok ()
  | e :: rest => do
    r.checkCalls enclosing e
    r.checkCallsEach enclosing rest

end

def resolve (r : Resolver) (e : Expr) : Except CompileError Expr := do
  let resolved ← r.inline e
  r.checkCalls none resolved
  return resolved

mutual

/-- Put every metric outside of aggregates into its own aggregate. -/
def aggregateMetrics (r : Resolver) : Expr → Expr
  | .literal value => .literal value
  | .placeholder name => .placeholder name
  | .column name =>
    match r.schema.metric? name with
    | some metric => .call metric.aggregator.name [.column name]
    | none => .column name
  | .binary op left right => .binary op (r.aggregateMetrics left) (r.aggregateMetrics right)
  | .unary op operand => .unary op (r.aggregateMetrics operand)
  | .inList operand items negated =>
    .inList (r.aggregateMetrics operand) (r.aggregateMetricsEach items) negated
  | .call name args =>
    if r.registry.isAggregate name then .call name args
    else .call name (r.aggregateMetricsEach args)

def aggregateMetricsEach (r : Resolver) : List Expr → List Expr
  | [] => []
  | e :: rest => r.aggregateMetrics e :: r.aggregateMetricsEach rest

end

end Resolver

end Rollup
