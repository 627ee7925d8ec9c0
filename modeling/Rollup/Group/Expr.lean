import Rollup.Expr.Basic

/-! Expressions over the values of a group of rows.

What is computed from single rows, and the aggregates, are referred to by their places in lists that
belong to the query. The rest of an expression is computed from these values.
-/

set_option autoImplicit false

namespace Rollup

inductive Reference where
  /-- A stored column of single rows; only conditions refer to these. -/
  | column (name : String)
  | key (index : Nat)
  | aggregate (index : Nat)
  | shared (index : Nat)
  | output (index : Nat)
  deriving DecidableEq, Repr

inductive GroupExpr where
  | reference (target : Reference)
  | literal (value : Literal)
  | binary (op : BinaryOp) (left right : GroupExpr)
  | unary (op : UnaryOp) (operand : GroupExpr)
  | inList (operand : GroupExpr) (items : List GroupExpr) (negated : Bool)
  | call (name : String) (args : List GroupExpr)
  deriving Inhabited, Repr

/-- The stage of computation at which a value is there: in single rows, in groups, or only behind
the groups. -/
inductive Level where
  | row
  | group
  | output
  deriving DecidableEq, Repr

def Level.rank : Level → Nat
  | .row => 0
  | .group => 1
  | .output => 2

def Level.max (a b : Level) : Level := if a.rank < b.rank then b else a

def Reference.level : Reference → Level
  | .column _ | .key _ => .row
  | .aggregate _ | .shared _ => .group
  | .output _ => .output

def Reference.isAggregated : Reference → Bool
  | .aggregate _ | .shared _ => true
  | _ => false

namespace GroupExpr

mutual

def same : GroupExpr → GroupExpr → Bool
  | .reference a, .reference b => a == b
  | .literal a, .literal b => a.same b
  | .binary op l r, .binary op' l' r' => op == op' && same l l' && same r r'
  | .unary op e, .unary op' e' => op == op' && same e e'
  | .inList e items negated, .inList e' items' negated' =>
    same e e' && sameItems items items' && negated == negated'
  | .call name args, .call name' args' => name == name' && sameItems args args'
  | _, _ => false

def sameItems : List GroupExpr → List GroupExpr → Bool
  | [], [] => true
  | a :: as, b :: bs => same a b && sameItems as bs
  | _, _ => false

end

instance : BEq GroupExpr := ⟨same⟩

mutual

def nodes : GroupExpr → List GroupExpr
  | .reference target => [.reference target]
  | .literal value => [.literal value]
  | .binary op left right => .binary op left right :: (nodes left ++ nodes right)
  | .unary op operand => .unary op operand :: nodes operand
  | .inList operand items negated =>
    .inList operand items negated :: (nodes operand ++ nodesEach items)
  | .call name args => .call name args :: nodesEach args

def nodesEach : List GroupExpr → List GroupExpr
  | [] => []
  | e :: rest => nodes e ++ nodesEach rest

end

def target? : GroupExpr → Option Reference
  | .reference target => some target
  | _ => none

def references (e : GroupExpr) : List Reference := e.nodes.filterMap target?

def hasAggregate (e : GroupExpr) : Bool := e.references.any (·.isAggregated)

def isCompound : GroupExpr → Bool
  | .reference _ | .literal _ => false
  | _ => true

def level (e : GroupExpr) : Level :=
  e.references.foldl (fun reached target => reached.max target.level) .row

def rowColumns (e : GroupExpr) : List String :=
  e.references.filterMap fun
    | .column name => some name
    | _ => none

def aggregates (e : GroupExpr) : List Nat :=
  e.references.filterMap fun
    | .aggregate index => some index
    | _ => none

mutual

def substituteM {m : Type → Type} [Monad m] (f : Reference → m GroupExpr) :
    GroupExpr → m GroupExpr
  | .reference target => f target
  | .literal value => pure (.literal value)
  | .binary op left right => do
    let left ← substituteM f left
    let right ← substituteM f right
    pure (.binary op left right)
  | .unary op operand => do
    let operand ← substituteM f operand
    pure (.unary op operand)
  | .inList operand items negated => do
    let operand ← substituteM f operand
    let items ← substituteEachM f items
    pure (.inList operand items negated)
  | .call name args => do
    let args ← substituteEachM f args
    pure (.call name args)

def substituteEachM {m : Type → Type} [Monad m] (f : Reference → m GroupExpr) :
    List GroupExpr → m (List GroupExpr)
  | [] => pure []
  | e :: rest => do
    let e ← substituteM f e
    let rest ← substituteEachM f rest
    pure (e :: rest)

end

end GroupExpr

end Rollup
