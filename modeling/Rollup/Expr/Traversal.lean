import Rollup.Expr.Basic
import Rollup.FirstSeen

/-! Walking over expressions and rebuilding them. -/

set_option autoImplicit false

namespace Rollup.Expr

def children : Expr → List Expr
  | .literal _ | .column _ | .placeholder _ => []
  | .binary _ left right => [left, right]
  | .unary _ operand => [operand]
  | .inList operand items _ => operand :: items
  | .call _ args => args

mutual

/-- The expressions met by a walk that visits a node before its operands, left to right, and does
not go below a node that `enter` refuses. -/
def walk (enter : Expr → Bool) : Expr → List Expr
  | .literal value => [.literal value]
  | .column name => [.column name]
  | .placeholder name => [.placeholder name]
  | .binary op left right =>
    .binary op left right ::
      (if enter (.binary op left right) then walk enter left ++ walk enter right else [])
  | .unary op operand =>
    .unary op operand :: (if enter (.unary op operand) then walk enter operand else [])
  | .inList operand items negated =>
    .inList operand items negated ::
      (if enter (.inList operand items negated) then walk enter operand ++ walkItems enter items
        else [])
  | .call name args =>
    .call name args :: (if enter (.call name args) then walkItems enter args else [])

def walkItems (enter : Expr → Bool) : List Expr → List Expr
  | [] => []
  | item :: rest => walk enter item ++ walkItems enter rest

end

def nodes (e : Expr) : List Expr := e.walk fun _ => true

def columnName? : Expr → Option String
  | .column name => some name
  | _ => none

def callName? : Expr → Option String
  | .call name _ => some name
  | _ => none

def columns (e : Expr) : List String := firstSeen (e.nodes.filterMap columnName?)

def calls (e : Expr) : List String := e.nodes.filterMap callName?

def containsCall (holds : String → Bool) (e : Expr) : Bool := e.calls.any holds

/-- The operands of a conjunction; an expression that is none is its only conjunct. -/
def conjuncts : Expr → List Expr
  | .binary .and left right => conjuncts left ++ conjuncts right
  | e => [e]

mutual

/-- Rebuild an expression from the leaves up. The function is applied once to every node, left to
right and operands first, with the operands already rebuilt. -/
def transformM {m : Type → Type} [Monad m] (f : Expr → m Expr) : Expr → m Expr
  | .literal value => f (.literal value)
  | .column name => f (.column name)
  | .placeholder name => f (.placeholder name)
  | .binary op left right => do
    let left ← transformM f left
    let right ← transformM f right
    f (.binary op left right)
  | .unary op operand => do
    let operand ← transformM f operand
    f (.unary op operand)
  | .inList operand items negated => do
    let operand ← transformM f operand
    let items ← transformItemsM f items
    f (.inList operand items negated)
  | .call name args => do
    let args ← transformItemsM f args
    f (.call name args)

def transformItemsM {m : Type → Type} [Monad m] (f : Expr → m Expr) : List Expr → m (List Expr)
  | [] => pure []
  | item :: rest => do
    let item ← transformM f item
    let rest ← transformItemsM f rest
    pure (item :: rest)

end

end Rollup.Expr
