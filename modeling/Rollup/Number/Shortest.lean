import Rollup.Number.Decimal

/-! The shortest decimal that reads back as a given binary floating-point number.

A number stands for every real that rounds to it: an interval around it, whose ends belong to it
when its significand is even. On the decimal grid of one, two, … digits, the two grid points next
to the number are tried; the first grid with a point in the interval gives the digits, and of two
such points the nearer one is taken. A tie between them is left to the caller.
-/

set_option autoImplicit false

namespace Rollup.Number

inductive Tie where
  | even
  | up
  deriving DecidableEq, Repr

/-- The positive number `coefficient * 10 ^ exponent`. -/
structure Decimal where
  coefficient : Nat
  exponent : Int
  deriving DecidableEq, Repr

/-- The magnitude of a code and the ends of its interval, as numerators over one denominator. -/
structure Neighbourhood where
  lower : Nat
  value : Nat
  upper : Nat
  denominator : Nat
  closed : Bool

def Neighbourhood.ofCode (code : Nat) : Neighbourhood :=
  let m := Binary64.significand code
  let q := Binary64.exponent code - 2
  -- Below the least magnitude of an exponent the next number is only half as far away.
  let below := if m = Binary64.binade ∧ -1076 < q then 1 else 2
  let unit := Nat.pow 2 q.toNat
  { lower := (4 * m - below) * unit, value := 4 * m * unit, upper := (4 * m + 2) * unit,
    denominator := Nat.pow 2 (-q).toNat, closed := m % 2 == 0 }

def Neighbourhood.inUnits (n : Neighbourhood) (k : Int) : Neighbourhood :=
  let up := Nat.pow 10 (-k).toNat
  { n with lower := n.lower * up, value := n.value * up, upper := n.upper * up,
           denominator := n.denominator * Nat.pow 10 k.toNat }

def Neighbourhood.holds (n : Neighbourhood) (point : Nat) : Bool :=
  let p := point * n.denominator
  if n.closed then n.lower ≤ p && p ≤ n.upper else n.lower < p && p < n.upper

def Neighbourhood.nearest? (n : Neighbourhood) (tie : Tie) : Option Nat :=
  let floor := n.value / n.denominator
  let twice := 2 * (n.value % n.denominator)
  match n.holds floor && 0 < floor, n.holds (floor + 1) with
  | false, false => none
  | true, false => some floor
  | false, true => some (floor + 1)
  | true, true =>
    if twice < n.denominator then some floor
    else if n.denominator < twice then some (floor + 1)
    else if tie = .even ∧ floor % 2 = 0 then some floor else some (floor + 1)

def Neighbourhood.leading (n : Neighbourhood) : Int :=
  let estimate : Int := (digitCount n.value : Int) - digitCount n.denominator
  let scaled := n.inUnits estimate
  if scaled.value < scaled.denominator then estimate - 1 else estimate

/-- The first grid with a hit, from the grid in units of `10 ^ k` to the one `steps` digits
finer. -/
def Neighbourhood.search (n : Neighbourhood) (tie : Tie) : Nat → Int → Decimal
  | 0, k => ⟨(n.inUnits k).value / (n.inUnits k).denominator, k⟩
  | steps + 1, k =>
    match (n.inUnits k).nearest? tie with
    | some coefficient => ⟨coefficient, k⟩
    | none => n.search tie steps (k - 1)

def Decimal.normal (d : Decimal) : Nat → Decimal
  | 0 => d
  | steps + 1 =>
    if d.coefficient % 10 = 0 then Decimal.normal ⟨d.coefficient / 10, d.exponent + 1⟩ steps else d

def shortest (tie : Tie) (code : Nat) : Decimal :=
  let n := Neighbourhood.ofCode code
  -- Seventeen digits always suffice.
  (n.search tie 17 n.leading).normal 18

end Rollup.Number
