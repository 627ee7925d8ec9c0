import Rollup.Number.Binary64

/-! Tokens of statements.

Only names, literals and function names are spelled differently from database to database; every
`Mark` has one text. Spaces, line breaks and indentation are tokens of their own.
-/

set_option autoImplicit false

namespace Rollup.Sql

inductive Mark where
  | select
  | source
  | filter
  | groupBy
  | having
  | orderBy
  | limit
  | offset
  | aliased
  | ascending
  | descending
  | distinct
  | over
  | partitionBy
  | interval
  | and
  | or
  | not
  | member
  | like
  | isNull
  | isNotNull
  | eq
  | ne
  | lt
  | gt
  | lte
  | gte
  | plus
  | minus
  | times
  | divide
  | modulo
  | star
  | comma
  | dot
  | leftParen
  | rightParen
  deriving DecidableEq, Repr

def Mark.text : Mark → String
  | .select => "SELECT"
  | .source => "FROM"
  | .filter => "WHERE"
  | .groupBy => "GROUP BY"
  | .having => "HAVING"
  | .orderBy => "ORDER BY"
  | .limit => "LIMIT"
  | .offset => "OFFSET"
  | .aliased => "AS"
  | .ascending => "ASC"
  | .descending => "DESC"
  | .distinct => "DISTINCT"
  | .over => "OVER"
  | .partitionBy => "PARTITION BY"
  | .interval => "INTERVAL"
  | .and => "AND"
  | .or => "OR"
  | .not => "NOT"
  | .member => "IN"
  | .like => "LIKE"
  | .isNull => "IS NULL"
  | .isNotNull => "IS NOT NULL"
  | .eq => "="
  | .ne => "<>"
  | .lt => "<"
  | .gt => ">"
  | .lte => "<="
  | .gte => ">="
  | .plus => "+"
  | .minus => "-"
  | .times | .star => "*"
  | .divide => "/"
  | .modulo => "%"
  | .comma => ","
  | .dot => "."
  | .leftParen => "("
  | .rightParen => ")"

inductive Token where
  | mark (value : Mark)
  | space
  | newline
  | indent (depth : Nat)
  | name (text : String)
  | int (value : Int)
  | float (value : Binary64)
  | string (text : String)
  | bool (value : Bool)
  | null
  /-- A function by its common name. -/
  | function (name : String)
  /-- A word that is written as it is; never a text that a user chose. -/
  | verbatim (text : String)
  deriving DecidableEq, Repr

def Token.isBlank : Token → Bool
  | .space | .newline | .indent _ => true
  | _ => false

def commaSeparated : List (List Token) → List Token
  | [] => []
  | [last] => last
  | part :: next :: rest => part ++ [.mark .comma, .space] ++ commaSeparated (next :: rest)

def introduced (keyword : Mark) (body : List Token) : List Token :=
  .mark keyword :: .space :: body

def parenthesized (body : List Token) : List Token :=
  .mark .leftParen :: (body ++ [.mark .rightParen])

def aliasTokens (name : String) : List Token :=
  .space :: introduced .aliased [.name name]

def optionalAlias : Option String → List Token
  | none => []
  | some name => aliasTokens name

end Rollup.Sql
