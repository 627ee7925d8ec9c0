import Rollup.Text.Character

/-! The functions that compute one value from a group of rows. -/

set_option autoImplicit false

namespace Rollup

inductive Aggregate where
  | sum
  | count
  | avg
  | min
  | max
  | cardinality
  | groupConcat
  | rate
  | first
  | last
  deriving DecidableEq, Repr

namespace Aggregate

def all : List Aggregate :=
  [.sum, .count, .avg, .min, .max, .cardinality, .groupConcat, .rate, .first, .last]

def name : Aggregate → String
  | .sum => "sum"
  | .count => "count"
  | .avg => "avg"
  | .min => "min"
  | .max => "max"
  | .cardinality => "cardinality"
  | .groupConcat => "groupConcat"
  | .rate => "rate"
  | .first => "first"
  | .last => "last"

def ofName? (name : String) : Option Aggregate :=
  all.find? fun f => Text.sameWord f.name name

/-- Whether the value is picked by time, which a database may need a window function for. -/
def picksByTime : Aggregate → Bool
  | .first | .last => true
  | _ => false

def arity : Aggregate → Nat × Nat
  | .count => (0, 1)
  | _ => (1, 1)

theorem ofName?_name (f : Aggregate) : ofName? f.name = some f := by
  cases f <;> decide

end Aggregate

end Rollup
