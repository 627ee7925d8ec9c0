import Rollup.Number.Word
import Rollup.Sql.Spelling

/-! Statements that select rows, possibly from the rows of another such statement. -/

set_option autoImplicit false

namespace Rollup.Sql

structure SelectItem where
  expr : Expr
  label : Option String
  deriving Inhabited, Repr

/-- A window of rows: at most `limit` of them, behind the first `offset`. -/
structure RowWindow where
  limit : Option Nat
  offset : Option Nat
  deriving DecidableEq, Inhabited, Repr

def RowWindow.all : RowWindow := ⟨none, none⟩

structure Select where
  items : List SelectItem
  filter : Option Expr := none
  groupBy : List Expr := []
  having : Option Expr := none
  orderBy : List (SortKey Expr) := []
  rows : RowWindow := .all
  deriving Inhabited, Repr

inductive Query where
  | bare (body : Select)
  | ofTable (body : Select) (table : String) (label : Option String)
  | ofQuery (body : Select) (source : Query) (label : String)
  deriving Inhabited, Repr

def SelectItem.tokens (item : SelectItem) : List Token :=
  item.expr.tokens ++ optionalAlias item.label

-- A count beyond the greatest signed word is written as that word.
def countToken (n : Nat) : Token := .int (min (n : Int) Number.maxWord)

def RowWindow.limitTokens (rows : RowWindow) : List Token :=
  match rows.limit with
  | none => []
  | some n => introduced .limit [countToken n]

def RowWindow.offsetTokens (rows : RowWindow) : List Token :=
  match rows.offset with
  | none | some 0 => []
  | some n => introduced .offset [countToken n]

def RowWindow.tokens (rows : RowWindow) : List Token :=
  let limit := rows.limitTokens
  let offset := rows.offsetTokens
  if limit.isEmpty || offset.isEmpty then limit ++ offset else limit ++ .space :: offset

def lineBreak (depth : Nat) : List Token :=
  if depth = 0 then [.newline] else [.newline, .indent depth]

def clause (depth : Nat) (keyword : Mark) (body : List Token) : List Token :=
  lineBreak depth ++ introduced keyword body

def listClause (depth : Nat) (keyword : Mark) (parts : List (List Token)) : List Token :=
  if parts.isEmpty then [] else clause depth keyword (commaSeparated parts)

def conditionClause (depth : Nat) (keyword : Mark) : Option Expr → List Token
  | none => []
  | some condition => clause depth keyword condition.tokens

namespace Select

def itemTokens (depth : Nat) : List SelectItem → List Token
  | [] => []
  | [last] => lineBreak (depth + 1) ++ last.tokens
  | item :: next :: rest =>
    lineBreak (depth + 1) ++ item.tokens ++ .mark .comma :: itemTokens depth (next :: rest)

def headTokens (depth : Nat) (body : Select) : List Token :=
  .mark .select :: itemTokens depth body.items

def rowTokens (depth : Nat) (rows : RowWindow) : List Token :=
  if rows.tokens.isEmpty then [] else lineBreak depth ++ rows.tokens

def tailTokens (depth : Nat) (body : Select) : List Token :=
  conditionClause depth .filter body.filter ++
    listClause depth .groupBy (body.groupBy.map (·.tokens)) ++
    conditionClause depth .having body.having ++
    listClause depth .orderBy (body.orderBy.map (·.tokens)) ++
    rowTokens depth body.rows

end Select

namespace Query

def tokensAt (depth : Nat) : Query → List Token
  | .bare body => body.headTokens depth ++ body.tailTokens depth
  | .ofTable body table tableAlias =>
    body.headTokens depth ++ clause depth .source (.name table :: optionalAlias tableAlias) ++
      body.tailTokens depth
  | .ofQuery body source tableAlias =>
    let inner := lineBreak (depth + 1) ++ tokensAt (depth + 1) source ++ lineBreak depth
    body.headTokens depth ++
      clause depth .source (parenthesized inner ++ aliasTokens tableAlias) ++
      body.tailTokens depth

def tokens (query : Query) : List Token := query.tokensAt 0

/-- A statement with one clause and one field a line. -/
def pretty (d : Dialect) (query : Query) : String := spell d query.tokens

def compact (d : Dialect) (query : Query) : String := spellCompact d query.tokens

end Query

end Rollup.Sql
