import Rollup.Number.Binary64
import Rollup.Value.Duration
import Rollup.Value.Percentage
import Rollup.Value.Size

/-! Expressions of selectors, filters and derived columns.

A placeholder stands for a value that is known only when a query is compiled. Whether a call
aggregates rows or computes row by row is decided by the registry of functions, not by the tree.
-/

set_option autoImplicit false

namespace Rollup

inductive Literal where
  | int (value : Int)
  | float (value : Binary64)
  | string (text : String)
  | bool (value : Bool)
  | null
  | duration (value : Duration)
  | size (value : Size)
  | percentage (value : Percentage)
  deriving DecidableEq, Repr

inductive BinaryOp where
  | add
  | sub
  | mul
  | div
  | mod
  | eq
  | ne
  | lt
  | lte
  | gt
  | gte
  | like
  | notLike
  | and
  | or
  deriving DecidableEq, Repr

inductive UnaryOp where
  | not
  | neg
  deriving DecidableEq, Repr

inductive Expr where
  | literal (value : Literal)
  | column (name : String)
  | placeholder (name : String)
  | binary (op : BinaryOp) (left right : Expr)
  | unary (op : UnaryOp) (operand : Expr)
  | inList (operand : Expr) (items : List Expr) (negated : Bool)
  | call (name : String) (args : List Expr)
  deriving Inhabited, Repr

def BinaryOp.isArithmetic : BinaryOp → Bool
  | .add | .sub | .mul | .div | .mod => true
  | _ => false

/-- Literals as keys: a number, a text, a duration, … is equal only to one of its own kind, and
within a kind the value counts, not the spelling. -/
def Literal.same : Literal → Literal → Bool
  | .int a, .int b => a == b
  | .float a, .float b => a.sameKey b
  | .string a, .string b => a == b
  | .bool a, .bool b => a == b
  | .null, .null => true
  | .duration a, .duration b => a.sameKey b
  | .size a, .size b => a == b
  | .percentage a, .percentage b => a.sameKey b
  | _, _ => false

namespace Expr

mutual

def same : Expr → Expr → Bool
  | .literal a, .literal b => a.same b
  | .column a, .column b => a == b
  | .placeholder a, .placeholder b => a == b
  | .binary op l r, .binary op' l' r' => op == op' && same l l' && same r r'
  | .unary op e, .unary op' e' => op == op' && same e e'
  | .inList e items negated, .inList e' items' negated' =>
    same e e' && sameItems items items' && negated == negated'
  | .call name args, .call name' args' => name == name' && sameItems args args'
  | _, _ => false

def sameItems : List Expr → List Expr → Bool
  | [], [] => true
  | a :: as, b :: bs => same a b && sameItems as bs
  | _, _ => false

end

instance : BEq Expr := ⟨same⟩

end Expr

end Rollup
