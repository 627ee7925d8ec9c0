import Rollup.Group.Aggregation

/-! How many stages a query takes, and what each of them computes. -/

set_option autoImplicit false

namespace Rollup

inductive Layout where
  | flat
  -- Groups, then what is computed from their aggregates.
  | computed
  -- Window functions in single rows, then groups.
  | windowed
  | windowedComputed
  deriving DecidableEq, Repr

structure AggregateSlot where
  call : AggregateCall
  /-- Whether a window function computes it in single rows. -/
  windowed : Bool
  name : Option String
  deriving Repr

namespace Layout

/-- The layout of a query, by whether it has aggregates that are window functions, outputs computed
from aggregates, and outputs that contain other aggregates. -/
def choose (hasWindow hasComputed selectsAggregate : Bool) : Layout :=
  if hasWindow then
    if hasComputed || selectsAggregate then .windowedComputed else .windowed
  else if hasComputed then .computed
  else .flat

def hasLastStage : Layout → Bool
  | .computed | .windowedComputed => true
  | _ => false

def isWindowed : Layout → Bool
  | .windowed | .windowedComputed => true
  | _ => false

end Layout

end Rollup
