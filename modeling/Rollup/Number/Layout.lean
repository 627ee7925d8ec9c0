import Rollup.Number.Shortest

/-! Writing binary floating-point numbers.

A layout says how the shortest decimal of a number is set: which numbers are written with a point
and zeros, and which with an exponent. `fixed` writes the exact value to a fixed number of places
instead.
-/

set_option autoImplicit false

namespace Rollup.Number

structure Layout where
  /-- The least exponent of the first digit that is written without an exponent part; none if
  there is no limit. -/
  lowest : Option Int
  highest : Option Int
  pointed : Bool
  tie : Tie

/-- Numbers in expressions and in statements: `60.0`, `0.00001`, `1e16`. -/
def Layout.literal : Layout := ⟨some (-5), some 15, true, .even⟩

/-- Numbers shown to people: digits only, with a point where one is needed. -/
def Layout.plain : Layout := ⟨none, none, false, .up⟩

def zeros (n : Nat) : List Char := List.replicate n '0'

def Layout.positional (layout : Layout) (leading : Int) : Bool :=
  layout.lowest.all (· ≤ leading) && layout.highest.all (leading ≤ ·)

def Layout.withPoint (layout : Layout) (digits : List Char) (exponent : Int) : List Char :=
  let pointAt : Int := digits.length + exponent
  if 0 ≤ exponent then
    digits ++ zeros exponent.toNat ++ (if layout.pointed then ['.', '0'] else [])
  else if 0 < pointAt then
    digits.take pointAt.toNat ++ '.' :: digits.drop pointAt.toNat
  else '0' :: '.' :: (zeros (-pointAt).toNat ++ digits)

def withExponent (digits : List Char) (leading : Int) : List Char :=
  let mantissa := match digits with
    | first :: next :: rest => first :: '.' :: next :: rest
    | short => short
  mantissa ++ 'e' :: (toString leading).toList

def Layout.magnitude (layout : Layout) (d : Decimal) : List Char :=
  let digits := Nat.toDigits 10 d.coefficient
  let leading : Int := digits.length + d.exponent - 1
  if layout.positional leading then layout.withPoint digits d.exponent
  else withExponent digits leading

def sign (negative : Bool) (text : List Char) : List Char :=
  if negative then '-' :: text else text

def Layout.write (layout : Layout) : Binary64 → String
  | .nan => "NaN"
  | .infinity negative => String.ofList (sign negative "inf".toList)
  | .finite negative code =>
    let text :=
      if code.val = 0 then if layout.pointed then "0.0".toList else "0".toList
      else layout.magnitude (shortest layout.tie code)
    String.ofList (sign negative text)

def placed (units places : Nat) : List Char :=
  let digits := Nat.toDigits 10 units
  let padded := zeros (places + 1 - digits.length) ++ digits
  let whole := padded.length - places
  padded.take whole ++ (if places = 0 then [] else '.' :: padded.drop whole)

/-- The exact value of a number, rounded to a number of places, a tie going to the even digit. -/
def fixed (places : Nat) : Binary64 → String
  | .finite negative code =>
    let (num, den) := Binary64.scaled (Binary64.significand code * Nat.pow 10 places) 1
      (Binary64.exponent code)
    String.ofList (sign negative (placed (Binary64.roundQuotient num den) places))
  | x => Layout.plain.write x

end Rollup.Number
