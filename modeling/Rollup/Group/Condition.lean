import Rollup.Compile.Resolver
import Rollup.Group.Output

/-! The conditions of a filter.

A filter is the conjunction of its conditions, and each of them is tested as early as its values are
there. A name in it is a stored column if there is one, else an output, else a derived column.
-/

set_option autoImplicit false

namespace Rollup

structure Condition where
  expr : GroupExpr
  level : Level
  text : String
  deriving Repr

/-- What names in a filter are looked up in. -/
structure FilterScope where
  resolver : Resolver
  keys : List GroupKey
  outputs : List Output

def Output.asOperand (index : Nat) (output : Output) : GroupExpr :=
  match output.kind with
  | .computed => .reference (.output index)
  | _ => output.expr

namespace FilterScope

def rowColumn (column : String) : Except CompileError GroupExpr :=
  .ok (.reference (.column column))

def liftResolved (scope : FilterScope) (e : Expr) : Collecting GroupExpr := do
  let resolved ← scope.resolver.resolve e
  lift scope.resolver.registry rowColumn resolved

def liftName (scope : FilterScope) (name : String) : Collecting GroupExpr :=
  if scope.resolver.schema.isStored name then return .reference (.column name)
  else match scope.outputs.findIdx? (·.name == name) with
    | some index =>
      match scope.outputs[index]? with
      | some output => return output.asOperand index
      | none => throw (.unknownColumn name)
    | none =>
      match scope.resolver.schema.column? name with
      | some (.derived _) => scope.liftResolved (.column name)
      | _ => throw (.unknownColumn name)

mutual

def liftExpr (scope : FilterScope) : Expr → Collecting GroupExpr
  | .literal value => pure (.literal value)
  | .column name => scope.liftName name
  | .placeholder name => do
    let value ← scope.resolver.placeholderValue name
    return .literal value
  | .binary op left right => do
    let left ← scope.liftExpr left
    let right ← scope.liftExpr right
    return .binary op left right
  | .unary op operand => do
    let operand ← scope.liftExpr operand
    return .unary op operand
  | .inList operand items negated => do
    let operand ← scope.liftExpr operand
    let items ← scope.liftEach items
    return .inList operand items negated
  | .call name args =>
    match scope.resolver.registry.get? name with
    | none => throw (.unknownFunction name)
    | some spec =>
      match spec.kind with
      | .aggregate _ => scope.liftResolved (.call name args)
      | .scalar => do
        if !spec.accepts args.length then
          throw (.unsupported (Expr.call name args).render
            (.argumentCount spec.name spec.minArgs spec.maxArgs))
        let args ← scope.liftEach args
        return .call name args

def liftEach (scope : FilterScope) : List Expr → Collecting (List GroupExpr)
  | [] => pure []
  | e :: rest => do
    let e ← scope.liftExpr e
    let rest ← scope.liftEach rest
    return e :: rest

end

/-- In a condition on groups a column of single rows stands for the group key it is. -/
def groupReference (scope : FilterScope) (text : String) :
    Reference → Except CompileError GroupExpr
  | .column name => match keyOf? scope.keys name with
    | some index => .ok (.reference (.key index))
    | none => .error (.mixedFilterLevels text)
  | target => .ok (.reference target)

def liftCondition (scope : FilterScope) (conjunct : Expr) : Collecting Condition := do
  let lifted ← scope.liftExpr conjunct
  let text := conjunct.render
  match lifted.level with
  | .row => return ⟨lifted, .row, text⟩
  | level => do
    let e ← (lifted.substituteM (scope.groupReference text) : Except CompileError GroupExpr)
    return ⟨e, level, text⟩

def conditions (scope : FilterScope) : Option Expr → Collecting (List Condition)
  | none => pure []
  | some filter => filter.conjuncts.mapM scope.liftCondition

end FilterScope

end Rollup
