import Rollup.Compile.Error
import Rollup.Expr.Traversal
import Rollup.Function.Registry
import Rollup.Group.Expr

/-! The aggregates of a query.

Lifting an expression takes the aggregate calls out of it and leaves references in their places.
Equal calls become one aggregate, which has the place of the first of them.
-/

set_option autoImplicit false

namespace Rollup

structure AggregateCall where
  func : Aggregate
  arg : Option Expr
  deriving Repr

namespace AggregateCall

def same (a b : AggregateCall) : Bool := a.func == b.func && a.arg == b.arg

instance : BEq AggregateCall := ⟨same⟩

def columns (call : AggregateCall) : List String :=
  match call.arg with
  | some arg => arg.columns
  | none => []

def column? (call : AggregateCall) : Option String :=
  match call.arg with
  | some (.column name) => some name
  | _ => none

def render (call : AggregateCall) : String :=
  let arg := match call.arg with
    | some arg => arg.render
    | none => ""
  call.func.name ++ "(" ++ arg ++ ")"

end AggregateCall

abbrev Collecting := StateT (List AggregateCall) (Except CompileError)

/-- The place of an aggregate, which is added at the end if it is new. -/
def intern (call : AggregateCall) : Collecting Nat := fun calls =>
  match calls.findIdx? (· == call) with
  | some index => .ok (index, calls)
  | none => .ok (calls.length, calls ++ [call])

mutual

/-- Take the aggregate calls out of an expression; columns outside of them become what `onColumn`
says. -/
def lift (registry : Registry) (onColumn : String → Except CompileError GroupExpr) :
    Expr → Collecting GroupExpr
  | .literal value => pure (.literal value)
  | .column name => liftM (onColumn name)
  | .placeholder name => throw (.unresolvedPlaceholder name)
  | .binary op left right => do
    let left ← lift registry onColumn left
    let right ← lift registry onColumn right
    return .binary op left right
  | .unary op operand => do
    let operand ← lift registry onColumn operand
    return .unary op operand
  | .inList operand items negated => do
    let operand ← lift registry onColumn operand
    let items ← liftEach registry onColumn items
    return .inList operand items negated
  | .call name args =>
    match registry.aggregate? name with
    | some func => do
      let index ← intern ⟨func, args.head?⟩
      return .reference (.aggregate index)
    | none => do
      let args ← liftEach registry onColumn args
      return .call name args

def liftEach (registry : Registry) (onColumn : String → Except CompileError GroupExpr) :
    List Expr → Collecting (List GroupExpr)
  | [] => pure []
  | e :: rest => do
    let e ← lift registry onColumn e
    let rest ← liftEach registry onColumn rest
    return e :: rest

end

end Rollup
