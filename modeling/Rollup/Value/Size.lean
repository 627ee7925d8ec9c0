import Rollup.Number.Layout
import Rollup.Number.Word
import Rollup.Text.Character
import Rollup.Value.Error

/-! Sizes: a count of bytes or of things, as in `512`, `10K` or `1MiB`.

In a written size a bare prefix multiplies by a power of 1000, and a prefix with `i`, `iB` or `B`
behind it by a power of 1024. `format` writes a size in one of three systems of units, in the
greatest unit that is not greater than the size.
-/

set_option autoImplicit false

namespace Rollup

def unitPrefixes : List Char := ['K', 'M', 'G', 'T', 'P', 'E']

inductive UnitSystem where
  | binary
  | decimalByte
  | decimal
  deriving DecidableEq, Repr

namespace UnitSystem

def base : UnitSystem → Nat
  | .binary => 1024
  | .decimalByte | .decimal => 1000

def suffix : UnitSystem → Char → List Char
  | .binary, unit => [unit, 'i', 'B']
  | .decimalByte, unit => [unit, 'B']
  | .decimal, unit => [unit]

def bareSuffix : UnitSystem → List Char
  | .binary | .decimalByte => ['B']
  | .decimal => []

def named : List (String × UnitSystem) :=
  [("binary", .binary), ("decimal_byte", .decimalByte), ("decimal", .decimal)]

end UnitSystem

structure Size where
  value : Int
  deriving DecidableEq, Repr

namespace Size

def multiplier? (unit : List Char) : Option Nat :=
  match unit.map Char.toLower with
  | [] => some 1
  | ['b'] => some 1
  | head :: rest =>
    -- Exa is written but not read.
    match (unitPrefixes.take 5).findIdx? (·.toLower == head) with
    | none => none
    | some i =>
      if rest = [] then some (Nat.pow 1000 (i + 1))
      else if rest = ['i'] ∨ rest = ['i', 'b'] ∨ rest = ['b'] then some (Nat.pow 1024 (i + 1))
      else none

def ofCount (count : Nat) (unit : List Char) : Except ValueFault Size :=
  if !Number.fitsWord count then .error .sizeOutOfRange
  else match multiplier? unit with
    | none => .error (.unknownSizeUnit (String.ofList unit))
    | some factor =>
      if Number.fitsWord (count * factor : Nat) then .ok ⟨(count * factor : Nat)⟩
      else .error .sizeOutOfRange

def ofChars (text : List Char) : Except ValueFault Size :=
  match text with
  | [] => .error .emptySize
  | '-' :: _ => .error .negativeSize
  | _ =>
    let digits := text.takeWhile Number.isDigit
    if digits.isEmpty then .error .sizeWithoutDigits
    else ofCount (Number.ofDigits digits) (text.dropWhile Number.isDigit)

def parse (text : String) : Except ValueError Size :=
  (ofChars text.toList).mapError fun fault => ⟨text, fault⟩

def render (s : Size) : String := toString s.value

/-- The exponent and the scale reached from given ones by multiplying with the base while the
result is a word and not greater than the magnitude, for at most `steps` times. -/
def climb (base magnitude : Nat) : Nat → Nat → Nat → Nat × Nat
  | 0, exponent, scale => (exponent, scale)
  | steps + 1, exponent, scale =>
    if scale * base ≤ Number.maxUnsignedWord ∧ scale * base ≤ magnitude then
      climb base magnitude steps (exponent + 1) (scale * base)
    else (exponent, scale)

def unitOf (system : UnitSystem) (magnitude : Nat) : Nat × Nat :=
  climb system.base magnitude unitPrefixes.length 0 1

/-- A value in a system of units, with a number of places that is at most three. -/
def format (value : Int) (places : Nat) (system : UnitSystem) : Except ValueError String :=
  if 3 < places then .error ⟨toString places, .precisionTooLarge⟩
  else
    match unitOf system value.natAbs with
    | (0, _) => .ok (toString value ++ String.ofList system.bareSuffix)
    | (exponent + 1, scale) =>
      let scaled := (Binary64.ofInt value).div (Binary64.ofInt scale)
      let unit := system.suffix ((unitPrefixes[exponent]?).getD 'K')
      .ok (Number.fixed places scaled ++ String.ofList unit)

end Size

end Rollup
