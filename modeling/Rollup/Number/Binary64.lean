/-! Binary floating-point numbers of 64 bits.

A finite number is a sign and a code. Codes number the magnitudes in increasing order: code zero is
zero, and a block of `2 ^ 52` codes shares one exponent. `ofRatio` rounds an exact quotient to the
nearest number, an even code winning a tie; every operation here computes the exact result first
and rounds it once.
-/

set_option autoImplicit false

namespace Rollup

def Binary64.binade : Nat := Nat.pow 2 52

def Binary64.codes : Nat := 2047 * Nat.pow 2 52

inductive Binary64 where
  | nan
  | infinity (negative : Bool)
  | finite (negative : Bool) (code : Fin Binary64.codes)
  deriving DecidableEq, Repr

namespace Binary64

def zero : Binary64 := .finite false ⟨0, by decide⟩

/-- The integer `m` of the magnitude `m * 2 ^ q` with a code. -/
def significand (code : Nat) : Nat :=
  if code < binade then code else binade + code % binade

/-- The exponent `q` of the magnitude `m * 2 ^ q` with a code. -/
def exponent (code : Nat) : Int :=
  if code < binade then -1074 else (code / binade : Nat) - 1075

def isFinite : Binary64 → Bool
  | .finite _ _ => true
  | _ => false

/-- The quotient `num / den` rounded to a natural number, a tie going to the even one. -/
def roundQuotient (num den : Nat) : Nat :=
  let floor := num / den
  let twice := 2 * (num % den)
  if twice < den then floor
  else if den < twice then floor + 1
  else if floor % 2 = 0 then floor else floor + 1

def scaled (num den : Nat) (shift : Int) : Nat × Nat :=
  if 0 ≤ shift then (num * Nat.pow 2 shift.toNat, den) else (num, den * Nat.pow 2 (-shift).toNat)

/-- The greatest `e` with `2 ^ e ≤ num / den`, for positive `num` and `den`. -/
def floorLog2 (num den : Nat) : Int :=
  let estimate : Int := (num.log2 : Int) - (den.log2 : Int)
  let (n, d) := scaled num den (-estimate)
  if n < d then estimate - 1 else estimate

/-- The code of the magnitude nearest to `num / den`; too large a code stands for infinity. -/
def nearestCode (num den : Nat) : Nat :=
  if num = 0 then 0
  else
    let q := max (floorLog2 num den - 52) (-1074)
    let (n, d) := scaled num den (-q)
    roundQuotient n d + (q + 1074).toNat * binade

def ofRatio (negative : Bool) (num den : Nat) : Binary64 :=
  let code := nearestCode num den
  if h : code < codes then .finite negative ⟨code, h⟩ else .infinity negative

def ofInt (n : Int) : Binary64 :=
  ofRatio (decide (n < 0)) n.natAbs 1

def neg : Binary64 → Binary64
  | .nan => .nan
  | .infinity negative => .infinity !negative
  | .finite negative code => .finite (!negative) code

def mul : Binary64 → Binary64 → Binary64
  | .nan, _ => .nan
  | _, .nan => .nan
  | .infinity s, .infinity t => .infinity (s != t)
  | .infinity s, .finite t code => if code.val = 0 then .nan else .infinity (s != t)
  | .finite s code, .infinity t => if code.val = 0 then .nan else .infinity (s != t)
  | .finite s a, .finite t b =>
    let (num, den) := scaled (significand a * significand b) 1 (exponent a + exponent b)
    ofRatio (s != t) num den

def div : Binary64 → Binary64 → Binary64
  | .nan, _ => .nan
  | _, .nan => .nan
  | .infinity _, .infinity _ => .nan
  | .infinity s, .finite t _ => .infinity (s != t)
  | .finite s _, .infinity t => .finite (s != t) ⟨0, by decide⟩
  | .finite s a, .finite t b =>
    if b.val = 0 then
      if a.val = 0 then .nan else .infinity (s != t)
    else
      let (num, den) := scaled (significand a) (significand b) (exponent a - exponent b)
      ofRatio (s != t) num den

/-- Equality as keys: all that is not a number is one key, and so are both zeros. -/
def sameKey : Binary64 → Binary64 → Bool
  | .nan, .nan => true
  | .infinity s, .infinity t => s == t
  | .finite s a, .finite t b => a == b && (s == t || a.val == 0)
  | _, _ => false

end Binary64

end Rollup
