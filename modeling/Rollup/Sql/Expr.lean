import Rollup.Sql.Token

/-! Expressions of statements, and the tokens they are written with.

Parentheses stand where an operand binds more loosely than its place allows, and around every
operator under a sign or under `NOT`.
-/

set_option autoImplicit false

namespace Rollup.Sql

inductive Literal where
  | int (value : Int)
  | float (value : Binary64)
  | string (text : String)
  | bool (value : Bool)
  | null
  deriving DecidableEq, Repr

inductive BinaryOp where
  | eq
  | ne
  | lt
  | gt
  | lte
  | gte
  | like
  | notLike
  | and
  | or
  | plus
  | minus
  | times
  | divide
  | modulo
  deriving DecidableEq, Repr

inductive UnaryOp where
  | not
  | minus
  deriving DecidableEq, Repr

inductive Direction where
  | ascending
  | descending
  deriving DecidableEq, Repr

/-- Something to sort by; without a direction the order is ascending. -/
structure SortKey (α : Type) where
  key : α
  direction : Option Direction
  deriving DecidableEq, Repr

inductive Expr where
  | column (table : Option String) (name : String)
  | literal (value : Literal)
  | binary (op : BinaryOp) (left right : Expr)
  | unary (op : UnaryOp) (operand : Expr)
  | function (name : String) (args : List Expr) (distinct : Bool)
  | inList (operand : Expr) (values : List Expr) (negated : Bool)
  | isNull (operand : Expr) (negated : Bool)
  | star (table : Option String)
  | window (call : Expr) (partitionBy : List Expr) (orderBy : List (SortKey Expr))
  | interval (count : Int) (unit : String)
  | typed (type text : String)
  deriving Inhabited, Repr

def Literal.token : Literal → Token
  | .int n => .int n
  | .float x => .float x
  | .string text => .string text
  | .bool value => .bool value
  | .null => .null

def comparisonStrength : Nat := 4

def notStrength : Nat := 3

def BinaryOp.strength : BinaryOp → Nat
  | .or => 1
  | .and => 2
  | .eq | .ne | .lt | .gt | .lte | .gte | .like | .notLike => comparisonStrength
  | .plus | .minus => 5
  | .times | .divide | .modulo => 6

def BinaryOp.tokens : BinaryOp → List Token
  | .eq => [.mark .eq]
  | .ne => [.mark .ne]
  | .lt => [.mark .lt]
  | .gt => [.mark .gt]
  | .lte => [.mark .lte]
  | .gte => [.mark .gte]
  | .like => [.mark .like]
  | .notLike => [.mark .not, .space, .mark .like]
  | .and => [.mark .and]
  | .or => [.mark .or]
  | .plus => [.mark .plus]
  | .minus => [.mark .minus]
  | .times => [.mark .times]
  | .divide => [.mark .divide]
  | .modulo => [.mark .modulo]

def UnaryOp.tokens : UnaryOp → List Token
  | .not => [.mark .not, .space]
  | .minus => [.mark .minus]

def Direction.mark : Direction → Mark
  | .ascending => .ascending
  | .descending => .descending

def directionTokens : Option Direction → List Token
  | none => []
  | some direction => [.space, .mark direction.mark]

def qualified (table : Option String) (last : Token) : List Token :=
  match table with
  | none => [last]
  | some table => [.name table, .mark .dot, last]

namespace Expr

/-- The strength of the outermost operator, if operands need parentheses because of it. -/
def strength? : Expr → Option Nat
  | .binary op _ _ => some op.strength
  | .inList _ (_ :: _) _ => some comparisonStrength
  | .isNull _ _ => some comparisonStrength
  | .unary .not _ => some notStrength
  | _ => none

def looserThan (bound : Nat) (e : Expr) : Bool := e.strength?.any (· < bound)

def atMost (bound : Nat) (e : Expr) : Bool := e.strength?.any (· ≤ bound)

def wrapped (parens : Bool) (tokens : List Token) : List Token :=
  if parens then parenthesized tokens else tokens

def overTokens (partitionBy orderBy : List (List Token)) : List Token :=
  let parts := if partitionBy.isEmpty then []
    else introduced .partitionBy (commaSeparated partitionBy)
  let order := if orderBy.isEmpty then [] else introduced .orderBy (commaSeparated orderBy)
  if parts.isEmpty || order.isEmpty then parts ++ order else parts ++ .space :: order

mutual

def tokens : Expr → List Token
  | .column table name => qualified table (.name name)
  | .literal value => [value.token]
  | .binary op left right =>
    wrapped (left.looserThan op.strength) (tokens left) ++ .space :: op.tokens ++
      .space :: wrapped (right.atMost op.strength) (tokens right)
  | .unary op operand => op.tokens ++ wrapped operand.strength?.isSome (tokens operand)
  | .function name args distinct =>
    .function name :: parenthesized
      ((if distinct then [.mark .distinct, .space] else []) ++ commaSeparated (tokensEach args))
  -- A list without values holds nothing, so the test for it has a fixed value.
  | .inList _ [] negated => [.bool negated]
  | .inList operand (value :: values) negated =>
    wrapped (operand.atMost comparisonStrength) (tokens operand) ++
      (if negated then [.space, .mark .not] else []) ++
      [.space, .mark .member, .space] ++
      parenthesized (commaSeparated (tokens value :: tokensEach values))
  | .isNull operand negated =>
    wrapped (operand.atMost comparisonStrength) (tokens operand) ++
      [.space, .mark (if negated then .isNotNull else .isNull)]
  | .star table => qualified table (.mark .star)
  | .window call partitionBy orderBy =>
    tokens call ++ [.space, .mark .over, .space] ++
      parenthesized (overTokens (tokensEach partitionBy) (tokensKeys orderBy))
  | .interval count unit => introduced .interval [.int count, .space, .verbatim unit]
  | .typed type text => [.verbatim type, .space, .string text]

def tokensEach : List Expr → List (List Token)
  | [] => []
  | e :: rest => tokens e :: tokensEach rest

def tokensKeys : List (SortKey Expr) → List (List Token)
  | [] => []
  | ⟨e, direction⟩ :: rest => (tokens e ++ directionTokens direction) :: tokensKeys rest

end

mutual

/-- The names of the columns in an expression, left to right, each as often as it occurs. -/
def columns : Expr → List String
  | .column _ name => [name]
  | .literal _ | .star _ | .interval _ _ | .typed _ _ => []
  | .binary _ left right => columns left ++ columns right
  | .unary _ operand => columns operand
  | .function _ args _ => columnsEach args
  | .inList operand values _ => columns operand ++ columnsEach values
  | .isNull operand _ => columns operand
  | .window call partitionBy orderBy =>
    columns call ++ columnsEach partitionBy ++ columnsKeys orderBy

def columnsEach : List Expr → List String
  | [] => []
  | e :: rest => columns e ++ columnsEach rest

def columnsKeys : List (SortKey Expr) → List String
  | [] => []
  | ⟨e, _⟩ :: rest => columns e ++ columnsKeys rest

end

def named (name : String) : Expr := .column none name

def ofInt (n : Int) : Expr := .literal (.int n)

def ofString (text : String) : Expr := .literal (.string text)

def apply (name : String) (args : List Expr) : Expr := .function name args false

end Expr

def SortKey.tokens (order : SortKey Expr) : List Token :=
  order.key.tokens ++ directionTokens order.direction

/-- The conditions joined by `AND`, the first ones innermost; none if there are none. -/
def conjunction? : List Expr → Option Expr
  | [] => none
  | first :: rest => some (rest.foldl (.binary .and) first)

end Rollup.Sql
