import Rollup.Expr.Basic
import Rollup.Expr.Lexeme

/-! Tokens: what the grammar of expressions is written in.

A lexeme becomes a token once its value is known: a word is a keyword or a name, and a number is
an integer if it fits a word and else the nearest finite floating-point number. A unit decides
what a measure is: `%` a percentage, `s`, `m`, `h` and `d` a duration, anything else a size.
-/

set_option autoImplicit false

namespace Rollup

inductive Token where
  | name (text : String)
  | literal (value : Literal)
  | placeholder (name : String)
  | symbol (value : Symbol)
  | and
  | or
  | not
  | member
  | is
  | like
  deriving DecidableEq, Repr

namespace Token

def ofWord (word : String) : Token :=
  match Text.asciiLower word with
  | "and" => .and
  | "or" => .or
  | "not" => .not
  | "in" => .member
  | "is" => .is
  | "like" => .like
  | "true" => .literal (.bool true)
  | "false" => .literal (.bool false)
  | "null" => .literal .null
  | _ => .name word

def ofNumber (text : String) (position : Nat) : Except ParseError Token :=
  match Number.readWord? text.toList with
  | some n => .ok (.literal (.int n))
  | none =>
    match Number.readBinary64? text.toList with
    | some x =>
      if x.isFinite then .ok (.literal (.float x)) else .error (.invalidNumber text position)
    | none => .error (.invalidNumber text position)

def readMeasure (text : String) : Except ValueError Literal :=
  match text.toList.getLast? with
  | some '%' => (Percentage.parse text).map .percentage
  | some 's' | some 'm' | some 'h' | some 'd' => (Duration.parse text).map .duration
  | _ => (Size.parse text).map .size

def ofMeasure (text : String) (position : Nat) : Except ParseError Token :=
  match readMeasure text with
  | .ok value => .ok (.literal value)
  | .error source => .error (.literal position source)

def ofLexeme (lexeme : Located Lexeme) : Except ParseError (Located Token) :=
  let located (token : Token) : Located Token := ⟨lexeme.start, lexeme.stop, token⟩
  match lexeme.value with
  | .word text => .ok (located (ofWord text))
  | .quotedName text => .ok (located (.name text))
  | .string text => .ok (located (.literal (.string text)))
  | .number text => (ofNumber text lexeme.start).map located
  | .measure text => (ofMeasure text lexeme.start).map located
  | .placeholder text => .ok (located (.placeholder text))
  | .symbol value => .ok (located (.symbol value))

/-- The tokens of a text, unless some lexeme or, failing that, some literal is bad. -/
def all (text : List Char) : Except ParseError (List (Located Token)) := do
  (← Lexeme.all text).mapM ofLexeme

end Token

end Rollup
