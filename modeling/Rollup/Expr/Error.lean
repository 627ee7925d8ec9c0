import Rollup.Value.Error

/-! Why the text of an expression is refused, and where. -/

set_option autoImplicit false

namespace Rollup

/-- Positions are byte offsets into the text. -/
inductive ParseError where
  | unexpected (position : Nat)
  | invalidNumber (text : String) (position : Nat)
  | emptyPlaceholder (position : Nat)
  | literal (position : Nat) (source : ValueError)
  deriving DecidableEq, Repr

namespace ParseError

def position : ParseError → Nat
  | .unexpected position | .invalidNumber _ position | .emptyPlaceholder position
  | .literal position _ => position

def isLiteral : ParseError → Bool
  | .literal _ _ => true
  | _ => false

def message : ParseError → String
  | .unexpected position => s!"unexpected input at position {position}"
  | .invalidNumber text position => s!"invalid number `{text}` at position {position}"
  | .emptyPlaceholder position => s!"empty macro name at position {position}"
  | .literal position source =>
    let reason := source.message
    s!"invalid literal at position {position}: {reason}"

end ParseError

end Rollup
