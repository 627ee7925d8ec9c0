import Rollup.Number.Layout
import Rollup.Text.Character
import Rollup.Value.Error

/-! Percentages: a finite number before a percent sign, as in `12.5%`.

A percentage keeps the number as written; two percentages are the same key when their fractions
are.
-/

set_option autoImplicit false

namespace Rollup

structure Percentage where
  percent : Binary64
  deriving DecidableEq, Repr

namespace Percentage

def hundred : Binary64 := .ofInt 100

def ofFraction (fraction : Binary64) : Percentage := ⟨fraction.mul hundred⟩

def fraction (p : Percentage) : Binary64 := p.percent.div hundred

def ofNumber (text : List Char) : Except ValueFault Percentage :=
  match Number.readBinary64? (Text.trim text) with
  | none => .error .notANumber
  | some percent => if percent.isFinite then .ok ⟨percent⟩ else .error .notFinite

def ofChars (text : List Char) : Except ValueFault Percentage :=
  match text.getLast? with
  | some '%' => ofNumber text.dropLast
  | _ => .error .noPercentSign

def parse (text : String) : Except ValueError Percentage :=
  (ofChars text.toList).mapError fun fault => ⟨text, fault⟩

def render (p : Percentage) : String := Number.Layout.plain.write p.percent ++ "%"

def sameKey (left right : Percentage) : Bool := left.fraction.sameKey right.fraction

end Percentage

end Rollup
