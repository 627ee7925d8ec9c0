import Rollup.Number.Layout
import Rollup.Sql.Dialect

/-! The text of a sequence of tokens.

`spell` keeps line breaks and indentation. `spellCompact` puts everything on one line: blanks
become one space, which is left out at the start, behind an opening parenthesis and before a
closing one.
-/

set_option autoImplicit false

namespace Rollup.Sql

namespace Token

def text (d : Dialect) : Token → String
  | .mark m => m.text
  | .space => " "
  | .newline => "\n"
  | .indent depth => String.ofList (List.replicate (2 * depth) ' ')
  | .name label => d.quoteName label
  | .int n => toString n
  -- Infinities and NaN have no literal.
  | .float x => if x.isFinite then Number.Layout.literal.write x else d.nullText
  | .string value => d.quoteString value
  | .bool value => d.boolText value
  | .null => d.nullText
  | .function common => (d.rename common).getD common
  | .verbatim word => word

end Token

def spell (d : Dialect) (tokens : List Token) : String :=
  String.join (tokens.map (Token.text d))

def spaceBefore (token : Token) (started afterParen : Bool) : Bool :=
  started && !afterParen && token != .mark .rightParen

/-- What is still to be written: `started` if anything has been written, `blank` behind blanks,
`afterParen` behind an opening parenthesis. -/
def spellRest (d : Dialect) (started blank afterParen : Bool) : List Token → List String
  | [] => []
  | token :: rest =>
    if token.isBlank then spellRest d started true afterParen rest
    else
      let text := token.text d
      let spaced := blank && spaceBefore token started afterParen
      let rest := spellRest d (started || !text.isEmpty) false (token == .mark .leftParen) rest
      if spaced then " " :: text :: rest else text :: rest

def spellCompact (d : Dialect) (tokens : List Token) : String :=
  String.join (spellRest d false false false tokens)

end Rollup.Sql
