import Rollup.Json.Basic
import Rollup.Number.Word
import Rollup.Text.Character

/-! Reading JSON.

The reader is strict: no comments, no trailing commas, no leading zeros, no control characters
inside strings, and nothing but blanks behind the value. A string with an escape for half of a
surrogate pair is well formed, but no text; it makes an unreadable value.
-/

set_option autoImplicit false

namespace Rollup.Json

def isJsonBlank (c : Char) : Bool :=
  c == ' ' || c == '\t' || c == '\n' || c == '\r'

def skipBlanks (text : List Char) : List Char :=
  text.dropWhile isJsonBlank

def hexValue? (c : Char) : Option Nat :=
  let n := c.toNat
  if 48 ≤ n && n ≤ 57 then some (n - 48)
  else if 97 ≤ n && n ≤ 102 then some (n - 87)
  else if 65 ≤ n && n ≤ 70 then some (n - 55)
  else none

def readUnit? : List Char → Option (Nat × List Char)
  | a :: b :: c :: d :: rest => do
    let a ← hexValue? a
    let b ← hexValue? b
    let c ← hexValue? c
    let d ← hexValue? d
    return (((a * 16 + b) * 16 + c) * 16 + d, rest)
  | _ => none

def readLowHalf? : List Char → Option (Nat × List Char)
  | '\\' :: 'u' :: rest =>
    match readUnit? rest with
    | some (unit, rest) => if 0xDC00 ≤ unit && unit ≤ 0xDFFF then some (unit, rest) else none
    | none => none
  | _ => none

/-- The character of an escape by number. A pair of surrogates is one character, and half a pair is
none. -/
def readUnicode? (text : List Char) : Option (Option Char × List Char) :=
  match readUnit? text with
  | none => none
  | some (unit, rest) =>
    if unit < 0xD800 || 0xDFFF < unit then some (some (Char.ofNat unit), rest)
    else if 0xDBFF < unit then some (none, rest)
    else
      match readLowHalf? rest with
      | some (low, rest) =>
        some (some (Char.ofNat (0x10000 + (unit - 0xD800) * 0x400 + (low - 0xDC00))), rest)
      | none => some (none, rest)

def readEscape? : List Char → Option (Option Char × List Char)
  | '"' :: rest => some (some '"', rest)
  | '\\' :: rest => some (some '\\', rest)
  | '/' :: rest => some (some '/', rest)
  | 'b' :: rest => some (some '\x08', rest)
  | 'f' :: rest => some (some '\x0c', rest)
  | 'n' :: rest => some (some '\n', rest)
  | 'r' :: rest => some (some '\r', rest)
  | 't' :: rest => some (some '\t', rest)
  | 'u' :: rest => readUnicode? rest
  | _ => none

-- What is read is kept in reverse; the first argument bounds the number of characters.
def readChars? : Nat → List (Option Char) → List Char →
    Option (List (Option Char) × List Char)
  | 0, _, _ => none
  | _, _, [] => none
  | fuel + 1, read, c :: rest =>
    if c = '"' then some (read, rest)
    else if c = '\\' then
      match readEscape? rest with
      | some (d, rest) => readChars? fuel (d :: read) rest
      | none => none
    else if c.toNat < 0x20 then none
    else readChars? fuel (some c :: read) rest

def readString? (text : List Char) : Option (Option String × List Char) :=
  (readChars? (text.length + 1) [] text).map fun (read, rest) =>
    ((read.reverse.mapM id).map String.ofList, rest)

def readDigits? (text : List Char) : Option (List Char × List Char) :=
  match text.takeWhile Number.isDigit with
  | [] => none
  | digits => some (digits, text.dropWhile Number.isDigit)

def readWhole? : List Char → Option (List Char × List Char)
  | '0' :: c :: rest => if Number.isDigit c then none else some (['0'], c :: rest)
  | text => readDigits? text

def readFraction? : List Char → Option (List Char × List Char)
  | '.' :: rest => (readDigits? rest).map fun (digits, rest) => ('.' :: digits, rest)
  | text => some ([], text)

def readSigned? (mark : Char) : List Char → Option (List Char × List Char)
  | '+' :: rest => (readDigits? rest).map fun (digits, rest) => (mark :: '+' :: digits, rest)
  | '-' :: rest => (readDigits? rest).map fun (digits, rest) => (mark :: '-' :: digits, rest)
  | rest => (readDigits? rest).map fun (digits, rest) => (mark :: digits, rest)

def readPower? : List Char → Option (List Char × List Char)
  | 'e' :: rest => readSigned? 'e' rest
  | 'E' :: rest => readSigned? 'E' rest
  | text => some ([], text)

def readMagnitude? (text : List Char) : Option (List Char × List Char) := do
  let (whole, rest) ← readWhole? text
  let (fraction, rest) ← readFraction? rest
  let (power, rest) ← readPower? rest
  return (whole ++ fraction ++ power, rest)

def readNumber? : List Char → Option (Json × List Char)
  | '-' :: rest =>
    (readMagnitude? rest).map fun (text, rest) => (.number (String.ofList ('-' :: text)), rest)
  | text => (readMagnitude? text).map fun (text, rest) => (.number (String.ofList text), rest)

def readName? : List Char → Option (Option String × List Char)
  | '"' :: rest => do
    let (name, rest) ← readString? rest
    match skipBlanks rest with
    | ':' :: rest => return (name, skipBlanks rest)
    | _ => none
  | _ => none

def orUnreadable (text rest : List Char) : Option Json → Json
  | some value => value
  | none => .unreadable (String.ofList (text.take (text.length - rest.length)))

def ofMembers? (members : List (Option String × Json)) : Option Json := do
  return .object (← members.mapM fun (name, value) => return (← name, value))

mutual

-- The first argument bounds the number of values and separators on the way.
def readValue? : Nat → List Char → Option (Json × List Char)
  | 0, _ => none
  | fuel + 1, text =>
    match text with
    | 'n' :: 'u' :: 'l' :: 'l' :: rest => some (.null, rest)
    | 't' :: 'r' :: 'u' :: 'e' :: rest => some (.bool true, rest)
    | 'f' :: 'a' :: 'l' :: 's' :: 'e' :: rest => some (.bool false, rest)
    | '"' :: rest =>
      (readString? rest).map fun (found, rest) =>
        (orUnreadable text rest (found.map .string), rest)
    | '[' :: rest =>
      match skipBlanks rest with
      | ']' :: rest => some (.array [], rest)
      | rest => (readItems? fuel rest).map fun (items, rest) => (.array items, rest)
    | '\x7b' :: rest =>
      match skipBlanks rest with
      | '\x7d' :: rest => some (.object [], rest)
      | rest =>
        (readMembers? fuel rest).map fun (members, rest) =>
          (orUnreadable text rest (ofMembers? members), rest)
    | _ => readNumber? text

def readItems? : Nat → List Char → Option (List Json × List Char)
  | 0, _ => none
  | fuel + 1, text =>
    match readValue? fuel text with
    | none => none
    | some (item, rest) =>
      match skipBlanks rest with
      | ']' :: rest => some ([item], rest)
      | ',' :: rest =>
        (readItems? fuel (skipBlanks rest)).map fun (items, rest) => (item :: items, rest)
      | _ => none

def readMembers? : Nat → List Char → Option (List (Option String × Json) × List Char)
  | 0, _ => none
  | fuel + 1, text =>
    match readName? text with
    | none => none
    | some (name, rest) =>
      match readValue? fuel rest with
      | none => none
      | some (value, rest) =>
        match skipBlanks rest with
        | '\x7d' :: rest => some ([(name, value)], rest)
        | ',' :: rest =>
          (readMembers? fuel (skipBlanks rest)).map fun (members, rest) =>
            ((name, value) :: members, rest)
        | _ => none

end

def parse? (text : String) : Option Json := do
  let chars := skipBlanks text.toList
  let (value, rest) ← readValue? (chars.length + 1) chars
  match skipBlanks rest with
  | [] => return value
  | _ => none

end Rollup.Json
