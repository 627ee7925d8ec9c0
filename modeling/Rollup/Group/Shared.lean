import Rollup.Group.Output

/-! Expressions that several outputs have in common.

Of the outputs that are computed from aggregates, a compound expression over aggregates that occurs
in two or more is taken out, as large as it can be, and computed once. It has the name of the first
output that is the same expression, or no name yet.
-/

set_option autoImplicit false

namespace Rollup

structure SharedExpr where
  expr : GroupExpr
  name : Option String
  deriving Repr

def Output.isComputed (output : Output) : Bool := output.kind == .computed

def computedExprs (outputs : List Output) : List GroupExpr :=
  (outputs.filter (·.isComputed)).map (·.expr)

def occurrences (wholes : List GroupExpr) (e : GroupExpr) : Nat :=
  wholes.countP fun whole => whole.nodes.any (· == e)

def isShared (wholes : List GroupExpr) (e : GroupExpr) : Bool :=
  e.isCompound && e.hasAggregate && 2 ≤ occurrences wholes e

def placeShared (e : GroupExpr) : StateM (List GroupExpr) Nat := fun found =>
  match found.findIdx? (· == e) with
  | some index => (index, found)
  | none => (found.length, found ++ [e])

mutual

/-- Put references in the place of the largest shared expressions, given what is shared. -/
def takeShared (shared : GroupExpr → Bool) (e : GroupExpr) : StateM (List GroupExpr) GroupExpr :=
  if shared e then do
    let index ← placeShared e
    return .reference (.shared index)
  else match e with
    | .reference target => pure (.reference target)
    | .literal value => pure (.literal value)
    | .binary op left right => do
      let left ← takeShared shared left
      let right ← takeShared shared right
      return .binary op left right
    | .unary op operand => do
      let operand ← takeShared shared operand
      return .unary op operand
    | .inList operand items negated => do
      let operand ← takeShared shared operand
      let items ← takeSharedEach shared items
      return .inList operand items negated
    | .call name args => do
      let args ← takeSharedEach shared args
      return .call name args

def takeSharedEach (shared : GroupExpr → Bool) :
    List GroupExpr → StateM (List GroupExpr) (List GroupExpr)
  | [] => pure []
  | e :: rest => do
    let e ← takeShared shared e
    let rest ← takeSharedEach shared rest
    return e :: rest

end

def shareOutput (shared : GroupExpr → Bool) (output : Output) :
    StateM (List GroupExpr) Output :=
  if output.isComputed then do
    let e ← takeShared shared output.expr
    return { output with expr := e }
  else return output

def wholeName? (outputs : List Output) (e : GroupExpr) : Option String :=
  (outputs.find? fun output => output.isComputed && output.expr == e).map (·.name)

/-- Take shared expressions out of outputs. -/
def shareExprs (outputs : List Output) : List Output × List SharedExpr :=
  let shared := isShared (computedExprs outputs)
  let (replaced, found) := (outputs.mapM (shareOutput shared)).run []
  (replaced, found.map fun e => ⟨e, wholeName? outputs e⟩)

end Rollup
