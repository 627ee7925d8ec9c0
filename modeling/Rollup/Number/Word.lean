/-! Integers that are counted in words of 64 bits, and their decimal texts. -/

set_option autoImplicit false

namespace Rollup.Number

def minWord : Int := -Int.pow 2 63

def maxWord : Int := Int.pow 2 63 - 1

def maxUnsignedWord : Nat := Nat.pow 2 64 - 1

def fitsWord (n : Int) : Bool :=
  decide (minWord ≤ n) && decide (n ≤ maxWord)

theorem fitsWord_iff (n : Int) : fitsWord n = true ↔ minWord ≤ n ∧ n ≤ maxWord := by
  simp [fitsWord]

def isDigit (c : Char) : Bool :=
  '0'.toNat ≤ c.toNat && c.toNat ≤ '9'.toNat

def digitValue (c : Char) : Nat :=
  c.toNat - '0'.toNat

def ofDigits (digits : List Char) : Nat :=
  digits.foldl (fun n c => 10 * n + digitValue c) 0

def readNat? (text : List Char) : Option Nat :=
  if text.isEmpty || !text.all isDigit then none else some (ofDigits text)

def readInt? : List Char → Option Int
  | '-' :: digits => (readNat? digits).map fun n => -(n : Int)
  | '+' :: digits => (readNat? digits).map fun n => (n : Int)
  | digits => (readNat? digits).map fun n => (n : Int)

def readWord? (text : List Char) : Option Int :=
  (readInt? text).filter fitsWord

end Rollup.Number
