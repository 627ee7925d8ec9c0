import Rollup.Number.Binary64
import Rollup.Number.Word

/-! Reading decimal text as a binary floating-point number.

A decimal text is a sign, digits with an optional point among them, and an optional exponent. The
words for infinity and for what is not a number are read as well. The value is the number nearest
to what the text writes.
-/

set_option autoImplicit false

namespace Rollup.Number

def digitCount (n : Nat) : Nat :=
  (Nat.toDigits 10 n).length

/-- The number nearest to `digits * 10 ^ exponent`. -/
def ofDecimal (negative : Bool) (digits : Nat) (exponent : Int) : Binary64 :=
  let leading := exponent + digitCount digits
  -- Every finite magnitude lies between the thousandth powers of ten, so no higher one is raised.
  if digits = 0 ∨ leading < -1000 then .ofRatio negative 0 1
  else if 1000 < leading then .infinity negative
  else if 0 ≤ exponent then .ofRatio negative (digits * Nat.pow 10 exponent.toNat) 1
  else .ofRatio negative digits (Nat.pow 10 (-exponent).toNat)

def readExponent? : List Char → Option Int
  | [] => some 0
  | c :: rest => if c == 'e' || c == 'E' then readInt? rest else none

/-- Digits with an optional point among them, at least one digit in all, and an optional
exponent. -/
def readMagnitude? (negative : Bool) (text : List Char) : Option Binary64 :=
  let whole := text.takeWhile isDigit
  let tail := text.dropWhile isDigit
  let (fraction, tail) := match tail with
    | '.' :: rest => (rest.takeWhile isDigit, rest.dropWhile isDigit)
    | rest => ([], rest)
  if whole.isEmpty && fraction.isEmpty then none
  else (readExponent? tail).map fun exponent =>
    ofDecimal negative (ofDigits (whole ++ fraction)) (exponent - fraction.length)

def readUnsigned? (negative : Bool) (text : List Char) : Option Binary64 :=
  let word := text.map Char.toLower
  if word == "inf".toList || word == "infinity".toList then some (.infinity negative)
  else if word == "nan".toList then some .nan
  else readMagnitude? negative text

def readBinary64? : List Char → Option Binary64
  | '-' :: rest => readUnsigned? true rest
  | '+' :: rest => readUnsigned? false rest
  | text => readUnsigned? false text

end Rollup.Number
