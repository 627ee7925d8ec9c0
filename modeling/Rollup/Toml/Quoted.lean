import Rollup.Json.Parser
import Rollup.Toml.Basic

/-! Strings of TOML documents.

Between double quotes a backslash begins an escape, between single quotes it stands for itself.
Three quotes open a string of several lines. Its first line break does not count if nothing stands
before it, and in double quotes a backslash at the end of a line drops all blanks up to the next
character. All other line breaks stay as they are written. Such a string ends at three quotes; one
or two more of them belong to it.
-/

set_option autoImplicit false

namespace Rollup.Toml

abbrev Read (α : Type) := Option (α × List Char)

def isLineBlank (c : Char) : Bool := c == ' ' || c == '\t'

-- No comment and no string holds control characters, but for tabs.
def isControl (c : Char) : Bool := (c.toNat < 0x20 && c != '\t') || c.toNat == 0x7F

def dropNewline? : List Char → Option (List Char)
  | '\n' :: rest => some rest
  | '\r' :: '\n' :: rest => some rest
  | _ => none

def hexNumber? (count : Nat) (text : List Char) : Option (Char × List Char) := do
  let digits := text.take count
  if digits.length < count then none
  let values ← digits.mapM Json.hexValue?
  let code := values.foldl (fun n digit => 16 * n + digit) 0
  if code.isValidChar then some (Char.ofNat code, text.drop count) else none

def readEscape? : List Char → Option (Char × List Char)
  | 'b' :: rest => some ('\x08', rest)
  | 't' :: rest => some ('\t', rest)
  | 'n' :: rest => some ('\n', rest)
  | 'f' :: rest => some ('\x0c', rest)
  | 'r' :: rest => some ('\r', rest)
  | 'e' :: rest => some ('\x1b', rest)
  | '"' :: rest => some ('"', rest)
  | '\\' :: rest => some ('\\', rest)
  | 'x' :: rest => hexNumber? 2 rest
  | 'u' :: rest => hexNumber? 4 rest
  | 'U' :: rest => hexNumber? 8 rest
  | _ => none

/-- The characters up to the closing quote, in reverse on top of `read`. The first argument bounds
their number. -/
def readLine? (quote : Char) : Nat → List Char → List Char → Read (List Char)
  | 0, _, _ => none
  | _, _, [] => none
  | fuel + 1, read, c :: rest =>
    if c = quote then some (read, rest)
    else if isControl c then none
    else if c = '\\' ∧ quote = '"' then
      match readEscape? rest with
      | some (d, rest) => readLine? quote fuel (d :: read) rest
      | none => none
    else readLine? quote fuel (c :: read) rest

def skipSpace? : List Char → Option (List Char)
  | '\r' :: '\n' :: rest => skipSpace? rest
  | '\r' :: _ => none
  | c :: rest => if isLineBlank c || c == '\n' then skipSpace? rest else some (c :: rest)
  | [] => some []

def dropLineEnd? (text : List Char) : Option (List Char) :=
  (dropNewline? (text.dropWhile isLineBlank)).bind skipSpace?

def readLines? (quote : Char) : Nat → List Char → List Char → Read (List Char)
  | 0, _, _ => none
  | _, _, [] => none
  | fuel + 1, read, c :: rest =>
    if c = quote then
      match rest with
      | d :: e :: rest =>
        if d = quote ∧ e = quote then
          let extra := (rest.takeWhile (· == quote)).take 2
          some (extra ++ read, rest.drop extra.length)
        else readLines? quote fuel (c :: read) (d :: e :: rest)
      | _ => none
    else if c = '\\' ∧ quote = '"' then
      match dropLineEnd? rest with
      | some rest => readLines? quote fuel read rest
      | none =>
        match readEscape? rest with
        | some (d, rest) => readLines? quote fuel (d :: read) rest
        | none => none
    else if isControl c && (dropNewline? (c :: rest)).isNone then none
    else readLines? quote fuel (c :: read) rest

def toText (read : List Char) : String := String.ofList read.reverse

def readQuoted? (quote : Char) (text : List Char) : Read String :=
  (readLine? quote (text.length + 1) [] text).map fun (read, rest) => (toText read, rest)

def readString? (quote : Char) (text : List Char) : Read String :=
  match text with
  | a :: b :: rest =>
    if a = quote ∧ b = quote then
      let body := (dropNewline? rest).getD rest
      (readLines? quote (body.length + 1) [] body).map fun (read, rest) => (toText read, rest)
    else readQuoted? quote text
  | _ => readQuoted? quote text

end Rollup.Toml
