import Rollup.Expr.Basic
import Rollup.Number.Layout
import Rollup.Text.Quoted

/-! Writing expressions in the syntax they are read in.

An operand stands in parentheses when its operator binds more loosely than the place it stands in
allows; operators of equal strength associate to the left.
-/

set_option autoImplicit false

namespace Rollup

def Literal.render : Literal → String
  | .int n => toString n
  | .float x => Number.Layout.literal.write x
  | .string text => Text.quote '\'' text
  | .bool true => "true"
  | .bool false => "false"
  | .null => "null"
  | .duration d => d.render
  | .size s => s.render
  | .percentage p => p.render

def BinaryOp.strength : BinaryOp → Nat
  | .or => 1
  | .and => 2
  | .eq | .ne | .lt | .lte | .gt | .gte | .like | .notLike => 4
  | .add | .sub => 5
  | .mul | .div | .mod => 6

def BinaryOp.symbol : BinaryOp → String
  | .add => "+"
  | .sub => "-"
  | .mul => "*"
  | .div => "/"
  | .mod => "%"
  | .eq => "="
  | .ne => "!="
  | .lt => "<"
  | .lte => "<="
  | .gt => ">"
  | .gte => ">="
  | .like => "like"
  | .notLike => "not like"
  | .and => "and"
  | .or => "or"

namespace Expr

def notStrength : Nat := 3

def comparisonStrength : Nat := 4

def signStrength : Nat := 7

/-- Whether an operand of an operator of strength `outer` needs parentheses. -/
def needsParens (outer : Nat) (onRight : Bool) : Expr → Bool
  | .binary op _ _ => op.strength < outer || (onRight && op.strength == outer)
  | .unary .not _ => notStrength < outer
  | _ => false

def parenthesized (parens : Bool) (text : String) : String :=
  if parens then "(" ++ text ++ ")" else text

mutual

def render : Expr → String
  | .literal value => value.render
  | .column name => name
  | .placeholder name => "\x7b" ++ name ++ "\x7d"
  | .binary op left right =>
    parenthesized (left.needsParens op.strength false) (render left) ++ " " ++ op.symbol ++ " " ++
      parenthesized (right.needsParens op.strength true) (render right)
  | .unary .not operand =>
    "not " ++ parenthesized (operand.needsParens notStrength false) (render operand)
  | .unary .neg operand =>
    "-" ++ parenthesized (operand.needsParens signStrength false) (render operand)
  | .inList operand items negated =>
    parenthesized (operand.needsParens comparisonStrength false) (render operand) ++
      (if negated then " not in (" else " in (") ++ ", ".intercalate (renderItems items) ++ ")"
  | .call name args => name ++ "(" ++ ", ".intercalate (renderItems args) ++ ")"

def renderItems : List Expr → List String
  | [] => []
  | item :: rest => render item :: renderItems rest

end

end Expr

end Rollup
