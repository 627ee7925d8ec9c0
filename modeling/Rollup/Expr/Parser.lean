import Rollup.Expr.Token
import Rollup.Reader

/-! Reading expressions.

The grammar, loosest first, is

    or      := and { `or` and }
    and     := not { `and` not }
    not     := { `not` } compare
    compare := sum [ comparison sum | [ `not` ] `in` list | `is` [ `not` ] `null` ]
    sum     := product { ( `+` | `-` ) product }
    product := signed { ( `*` | `/` | `%` ) signed }
    signed  := { `-` } atom
    atom    := literal | placeholder | name [ arguments ] | `(` or `)`
    list    := `(` or { `,` or } `)`
    arguments := list | `(` [ `*` ] `)`

with operators associating to the left. The readers of the levels take the reader of the
expressions in parentheses.
-/

set_option autoImplicit false

namespace Rollup.Expr

open Reader

inductive Chain where
  | or
  | and
  | sum
  | product
  deriving DecidableEq, Repr

def Chain.operator? : Chain → Token → Option BinaryOp
  | .or, .or => some .or
  | .and, .and => some .and
  | .sum, .symbol .plus => some .add
  | .sum, .symbol .minus => some .sub
  | .product, .symbol .star => some .mul
  | .product, .symbol .slash => some .div
  | .product, .symbol .percent => some .mod
  | _, _ => none

def comparison? : Token → Option BinaryOp
  | .symbol .eq => some .eq
  | .symbol .ne => some .ne
  | .symbol .lt => some .lt
  | .symbol .lte => some .lte
  | .symbol .gt => some .gt
  | .symbol .gte => some .gte
  | .like => some .like
  | _ => none

def literal? : Token → Option Expr
  | .literal value => some (.literal value)
  | _ => none

def placeholder? : Token → Option Expr
  | .placeholder name => some (.placeholder name)
  | _ => none

def name? : Token → Option String
  | .name name => some name
  | _ => none

/-- A sign in front of a number belongs to the number. -/
def negate : Expr → Expr
  | .literal (.int n) => .literal (.int (-n))
  | .literal (.float x) => .literal (.float x.neg)
  | operand => .unary .neg operand

inductive Suffix where
  | compare (op : BinaryOp) (right : Expr)
  | member (items : List Expr) (negated : Bool)
  | null (negated : Bool)

/-- A test for null is a comparison with the null literal. -/
def Suffix.behind (left : Expr) : Suffix → Expr
  | .compare op right => .binary op left right
  | .member items negated => .inList left items negated
  | .null negated => .binary (if negated then .ne else .eq) left (.literal .null)

section Levels

variable (expr : Reader Token Expr)

def readParenthesized {α : Type} (reader : Reader Token α) : Reader Token α :=
  delimited (just (.symbol .leftParen)) reader (just (.symbol .rightParen))

def readList : Reader Token (List Expr) :=
  readParenthesized (separated expr (just (.symbol .comma)))

/-- Nothing and a star alone both stand for no arguments. -/
def readArguments : Reader Token (List Expr) :=
  orElse (readList expr)
    (readParenthesized ((fun _ => []) <$> optional (just (.symbol .star))))

def readReference : Reader Token Expr := do
  let name ← select name?
  match ← optional (readArguments expr) with
  | some args => return .call name args
  | none => return .column name

def readAtom : Reader Token Expr :=
  choice [select literal?, select placeholder?, readReference expr, readParenthesized expr]

def readSigned : Reader Token Expr :=
  foldr (just (.symbol .minus)) (readAtom expr) negate

def readRight (level : Chain) (operand : Reader Token Expr) (left : Expr) : Reader Token Expr := do
  let op ← select level.operator?
  return .binary op left (← operand)

def readChain (level : Chain) (operand : Reader Token Expr) : Reader Token Expr :=
  foldl operand (readRight level operand)

def readProduct : Reader Token Expr :=
  readChain .product (readSigned expr)

def readSum : Reader Token Expr :=
  readChain .sum (readProduct expr)

def readComparison : Reader Token BinaryOp :=
  orElse (select comparison?) do
    just .not
    just .like
    return .notLike

def readCompared : Reader Token Suffix := do
  let op ← readComparison
  return .compare op (← readSum expr)

def readMember : Reader Token Suffix := do
  let negated ← optional (just .not)
  just .member
  return .member (← readList expr) negated.isSome

def readNull : Reader Token Suffix := do
  just .is
  let negated ← optional (just .not)
  just (.literal .null)
  return .null negated.isSome

def readSuffix : Reader Token Suffix :=
  choice [readCompared expr, readMember expr, readNull]

def readCompare : Reader Token Expr := do
  let left ← readSum expr
  match ← optional (readSuffix expr) with
  | some suffix => return suffix.behind left
  | none => return left

def readNot : Reader Token Expr :=
  foldr (just .not) (readCompare expr) (.unary .not)

def readAnd : Reader Token Expr :=
  readChain .and (readNot expr)

def readOr : Reader Token Expr :=
  readChain .or (readAnd expr)

end Levels

def readWithin : Nat → Reader Token Expr
  | 0 => fail
  | depth + 1 => readOr (readWithin depth)

/-- The expression that a sequence of tokens writes, or the index of the first token that no
expression can have there; the index behind the last token if the sequence is only a beginning.
There are fewer parentheses inside one another than tokens. -/
def ofTokens (tokens : List Token) : Except Nat Expr :=
  match readWithin (tokens.length + 1) tokens with
  | ⟨some (e, []), _⟩ => .ok e
  | ⟨_, ahead⟩ => .error (tokens.length - ahead)

def parse (text : String) : Except ParseError Expr :=
  match Token.all text.toList with
  | .error e => .error e
  | .ok tokens =>
    match ofTokens (tokens.map (·.value)) with
    | .ok e => .ok e
    | .error index =>
      .error (.unexpected ((tokens[index]?.map (·.start)).getD (Text.byteLength text.toList)))

end Rollup.Expr
