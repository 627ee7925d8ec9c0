import Rollup.Expr.Error
import Rollup.Number.Word
import Rollup.Text.Character
import Rollup.Text.Quoted

/-! Cutting the text of an expression into lexemes.

`Lexeme.scan` splits the first lexeme off a text: it returns the lexeme, the characters it is
written with, and the rest. Numbers take as many characters as they can, and a percent sign or a
run of letters right behind a number belongs to it. `Lexeme.all` skips blanks between lexemes and
records where each one stands.
-/

set_option autoImplicit false

namespace Rollup

inductive Symbol where
  | leftParen
  | rightParen
  | comma
  | star
  | plus
  | minus
  | slash
  | percent
  | eq
  | ne
  | lt
  | lte
  | gt
  | gte
  deriving DecidableEq, Repr

inductive Lexeme where
  | word (text : String)
  | quotedName (text : String)
  | string (text : String)
  | number (text : String)
  | measure (text : String)
  | placeholder (name : String)
  | symbol (value : Symbol)
  deriving DecidableEq, Repr

/-- Something written between two byte offsets of a text. -/
structure Located (α : Type) where
  start : Nat
  stop : Nat
  value : α
  deriving Repr

inductive LexemeFault where
  | noLexeme
  | unclosed
  | emptyPlaceholder
  deriving DecidableEq, Repr

structure Scanned where
  lexeme : Lexeme
  written : List Char
  rest : List Char

namespace Lexeme

def startsWord (c : Char) : Bool := c.isAlpha || c == '_'

def continuesWord (c : Char) : Bool := c.isAlphanum || c == '_' || c == '.'

def splitFraction : List Char → List Char × List Char
  | '.' :: rest =>
    match rest.takeWhile Number.isDigit with
    | [] => ([], '.' :: rest)
    | digits => ('.' :: digits, rest.dropWhile Number.isDigit)
  | text => ([], text)

def splitSign : List Char → List Char × List Char
  | '+' :: rest => (['+'], rest)
  | '-' :: rest => (['-'], rest)
  | text => ([], text)

def splitExponent : List Char → List Char × List Char
  | [] => ([], [])
  | c :: rest =>
    if c == 'e' || c == 'E' then
      let (sign, digits) := splitSign rest
      match digits.takeWhile Number.isDigit with
      | [] => ([], c :: rest)
      | taken => (c :: (sign ++ taken), digits.dropWhile Number.isDigit)
    else ([], c :: rest)

/-- The longest number at the head of a text that begins with a digit. -/
def splitNumber (text : List Char) : List Char × List Char :=
  let whole := text.takeWhile Number.isDigit
  let (fraction, rest) := splitFraction (text.dropWhile Number.isDigit)
  let (exponent, rest) := splitExponent rest
  (whole ++ fraction ++ exponent, rest)

def splitUnit : List Char → List Char × List Char
  | '%' :: rest => (['%'], rest)
  | text => (text.takeWhile Char.isAlpha, text.dropWhile Char.isAlpha)

def scanNumber (text : List Char) : Scanned :=
  let (digits, rest) := splitNumber text
  match splitUnit rest with
  | ([], rest) => ⟨.number (String.ofList digits), digits, rest⟩
  | (unit, rest) => ⟨.measure (String.ofList (digits ++ unit)), digits ++ unit, rest⟩

def scanQuoted (mark : Char) (lexeme : String → Lexeme) (text : List Char) :
    Except LexemeFault Scanned :=
  match Text.splitQuoted mark text with
  | none => .error .unclosed
  | some (body, rest) =>
    .ok ⟨lexeme (String.ofList (Text.undouble mark body)), mark :: (body ++ [mark]), rest⟩

def scanPlaceholder (text : List Char) : Except LexemeFault Scanned :=
  let body := text.takeWhile (· != '\x7d')
  match text.dropWhile (· != '\x7d') with
  | [] => .error .unclosed
  | _ :: rest =>
    match Text.trim body with
    | [] => .error .emptyPlaceholder
    | name => .ok ⟨.placeholder (String.ofList name), '\x7b' :: (body ++ ['\x7d']), rest⟩

def scanSymbol? : List Char → Option (Symbol × List Char × List Char)
  | '=' :: '=' :: rest => some (.eq, ['=', '='], rest)
  | '!' :: '=' :: rest => some (.ne, ['!', '='], rest)
  | '<' :: '>' :: rest => some (.ne, ['<', '>'], rest)
  | '<' :: '=' :: rest => some (.lte, ['<', '='], rest)
  | '>' :: '=' :: rest => some (.gte, ['>', '='], rest)
  | '=' :: rest => some (.eq, ['='], rest)
  | '<' :: rest => some (.lt, ['<'], rest)
  | '>' :: rest => some (.gt, ['>'], rest)
  | '(' :: rest => some (.leftParen, ['('], rest)
  | ')' :: rest => some (.rightParen, [')'], rest)
  | ',' :: rest => some (.comma, [','], rest)
  | '*' :: rest => some (.star, ['*'], rest)
  | '+' :: rest => some (.plus, ['+'], rest)
  | '-' :: rest => some (.minus, ['-'], rest)
  | '/' :: rest => some (.slash, ['/'], rest)
  | '%' :: rest => some (.percent, ['%'], rest)
  | _ => none

def scan (text : List Char) : Except LexemeFault Scanned :=
  match text with
  | [] => .error .noLexeme
  | c :: rest =>
    if Number.isDigit c then .ok (scanNumber text)
    else if startsWord c then
      let letters := text.takeWhile continuesWord
      .ok ⟨.word (String.ofList letters), letters, text.dropWhile continuesWord⟩
    else if c = '\'' then scanQuoted '\'' .string rest
    else if c = '"' then scanQuoted '"' .quotedName rest
    else if c = '\x7b' then scanPlaceholder rest
    else match scanSymbol? text with
      | some (sign, written, rest) => .ok ⟨.symbol sign, written, rest⟩
      | none => .error .noLexeme

/-- The error for a fault at an offset of a text, of which `rest` is left. An opening quote or
brace is missed at the end of the text, unless nothing follows it. -/
def faultAt (offset : Nat) (rest : List Char) : LexemeFault → ParseError
  | .noLexeme => .unexpected offset
  | .emptyPlaceholder => .emptyPlaceholder offset
  | .unclosed =>
    .unexpected (if rest.length ≤ 1 then offset else offset + Text.byteLength rest)

-- The first argument bounds the number of lexemes.
def allFrom : Nat → Nat → List Char → Except ParseError (List (Located Lexeme))
  | 0, _, _ => .ok []
  | fuel + 1, offset, text =>
    let blanks := text.takeWhile Text.isBlank
    let start := offset + Text.byteLength blanks
    match text.dropWhile Text.isBlank with
    | [] => .ok []
    | c :: tail =>
      match scan (c :: tail) with
      | .error fault => .error (faultAt start (c :: tail) fault)
      | .ok scanned =>
        let stop := start + Text.byteLength scanned.written
        (allFrom fuel stop scanned.rest).map (⟨start, stop, scanned.lexeme⟩ :: ·)

def all (text : List Char) : Except ParseError (List (Located Lexeme)) :=
  allFrom (text.length + 1) 0 text

end Lexeme

end Rollup
