import Rollup.Number.Decimal
import Rollup.Time.Civil
import Rollup.Toml.Basic

/-! Numbers, truth values, dates and times of TOML documents.

An underscore may stand between two digits, or behind a sign. Numbers of base ten have no leading
zeros. Some words have the form of a number and stand for none: a mark of a base without digits, and
a whole number with a part behind an underscore that is not of digits alone. They are unreadable,
and so are a whole number that no signed or unsigned integer of 128 bits holds and a number with a
fraction or an exponent that is too large for a float.
-/

set_option autoImplicit false

namespace Rollup.Toml

def hexDigitValue (c : Char) : Nat :=
  if Number.isDigit c then c.toNat - '0'.toNat else c.toLower.toNat - 'a'.toNat + 10

def isDigitOf (base : Nat) (c : Char) : Bool :=
  (Number.isDigit c || ('a' ≤ c.toLower && c.toLower ≤ 'f')) && hexDigitValue c < base

def ofBase (base : Nat) (digits : List Char) : Nat :=
  digits.foldl (fun n c => base * n + hexDigitValue c) 0

/-- A text without its underscores, each of which stands between two digits. -/
def joined? (isDigit : Char → Bool) : List Char → Option (List Char)
  | [] => some []
  | '_' :: _ => none
  | c :: '_' :: d :: rest =>
    if isDigit c && isDigit d then (joined? isDigit (d :: rest)).map (c :: ·) else none
  | c :: rest => (joined? isDigit rest).map (c :: ·)

/-- Likewise for the text behind a sign, where an underscore needs no digit in front. -/
def joinedBehindSign? (isDigit : Char → Bool) : List Char → Option (List Char)
  | '_' :: c :: rest => if isDigit c then joined? isDigit (c :: rest) else none
  | text => joined? isDigit text

def ofInt (word : List Char) (n : Int) : Value :=
  if -Int.pow 2 127 ≤ n ∧ n < Int.pow 2 128 then .int n else .unreadable (String.ofList word)

def based? (base : Nat) (word digits : List Char) : Option Value := do
  let digits ← joined? (isDigitOf base) digits
  if !digits.all (isDigitOf base) then none
  if digits.isEmpty then return .unreadable (String.ofList word)
  return ofInt word (ofBase base digits)

def splitAtChar (stop : Char → Bool) (text : List Char) : List Char × List Char :=
  (text.takeWhile (!stop ·), text.dropWhile (!stop ·))

def isDigits (text : List Char) : Bool := !text.isEmpty && text.all Number.isDigit

def isExponent : List Char → Bool
  | [] => true
  | _ :: '+' :: rest => isDigits rest
  | _ :: '-' :: rest => isDigits rest
  | _ :: rest => isDigits rest

def isFraction : List Char → Bool
  | [] => true
  | _ :: rest => isDigits rest

def isFloatMark (c : Char) : Bool := c == '.' || c == 'e' || c == 'E'

def float? (negative : Bool) (word text : List Char) : Option Value := do
  let text ← joinedBehindSign? Number.isDigit text
  let (mantissa, power) := splitAtChar (fun c => c == 'e' || c == 'E') text
  let (front, fraction) := splitAtChar (· == '.') mantissa
  if !(isDigits front && isFraction fraction && isExponent power) then none
  let value ← Number.readUnsigned? negative text
  return if value.isFinite then .float value else .unreadable (String.ofList word)

/-- A whole number behind its sign. Only digits stand in front of its first underscore. -/
def whole? (negative : Bool) (word text : List Char) : Option Value := do
  match text.dropWhile Number.isDigit with
  | [] | '_' :: _ =>
    let text ← joinedBehindSign? (isDigitOf 16) text
    if text.isEmpty then none
    if !isDigits text then return .unreadable (String.ofList word)
    let n : Nat := Number.ofDigits text
    return ofInt word (if negative then -(n : Int) else n)
  | _ => none

def hasLeadingZero : List Char → Bool
  | '0' :: c :: _ => Number.isDigit c || c == '_'
  | _ => false

def signed? (negative : Bool) (word text : List Char) : Option Value :=
  if text == "inf".toList then some (.float (.infinity negative))
  else if text == "nan".toList then some (.float .nan)
  else if hasLeadingZero text then none
  else if text.any isFloatMark then float? negative word text
  else whole? negative word text

def number? (word : List Char) : Option Value :=
  match word with
  | '0' :: 'x' :: digits => based? 16 word digits
  | '0' :: 'o' :: digits => based? 8 word digits
  | '0' :: 'b' :: digits => based? 2 word digits
  | '+' :: text => signed? false word text
  | '-' :: text => signed? true word text
  | '_' :: _ => none
  | text => signed? false word text

def fixedDigits? (count : Nat) (text : List Char) : Option (Nat × List Char) :=
  let digits := text.take count
  if digits.length = count && digits.all Number.isDigit then
    some (Number.ofDigits digits, text.drop count)
  else none

def afterMark? (mark : Char) : List Char → Option (List Char)
  | c :: rest => if c = mark then some rest else none
  | [] => none

def dropDate? (text : List Char) : Option (List Char) := do
  let (year, rest) ← fixedDigits? 4 text
  let (month, rest) ← fixedDigits? 2 (← afterMark? '-' rest)
  let (day, rest) ← fixedDigits? 2 (← afterMark? '-' rest)
  if (Date.mk year month day).isValid then some rest else none

def dropSeconds? : List Char → Option (List Char)
  | ':' :: rest => do
    let (second, rest) ← fixedDigits? 2 rest
    if 60 < second then none
    match rest with
    | '.' :: more =>
      match more.takeWhile Number.isDigit with
      | [] => none
      | _ => some (more.dropWhile Number.isDigit)
    | rest => some rest
  | rest => some rest

def dropClock? (text : List Char) : Option (List Char) := do
  let (hour, rest) ← fixedDigits? 2 text
  match rest with
  | ':' :: rest =>
    let (minute, rest) ← fixedDigits? 2 rest
    if 23 < hour || 59 < minute then none
    dropSeconds? rest
  | _ => none

def isZone : List Char → Bool
  | [] | ['Z'] | ['z'] => true
  | [sign, a, b, ':', c, d] =>
    (sign == '+' || sign == '-') && [a, b, c, d].all Number.isDigit &&
      Number.ofDigits [a, b] ≤ 23 && Number.ofDigits [c, d] ≤ 59
  | _ => false

def isTime (text : List Char) : Bool :=
  match dropDate? text with
  | some [] => true
  | some (mark :: rest) =>
    (mark == 'T' || mark == 't' || mark == ' ') && (dropClock? rest).any isZone
  | none => dropClock? text == some []

def scalar? (text : List Char) : Option Value :=
  if text == "true".toList then some (.bool true)
  else if text == "false".toList then some (.bool false)
  else if isTime text then some (.time (String.ofList text))
  else number? text

end Rollup.Toml
