import Rollup.Expr.Printer
import Rollup.Time.Rfc3339

/-! Queries for metrics: what to select from a schema, over which time, and in which order. -/

set_option autoImplicit false

namespace Rollup

/-- An expression to select, with the name of its column if that is not its own name. -/
structure Selector where
  expr : Expr
  label : Option String
  deriving Repr

/-- A range of time with its start and without its end, and the length of the buckets it is cut
into. -/
structure Interval where
  start : Instant
  stop : Instant
  step : Option Duration
  timeColumn : Option String
  deriving DecidableEq, Repr

structure OrderBy where
  name : String
  descending : Bool
  deriving DecidableEq, Repr

structure Limit where
  limit : Nat
  offset : Nat
  deriving DecidableEq, Repr

structure Query where
  selectors : List Selector := []
  filter : Option Expr := none
  groupBy : List String := []
  interval : Option Interval := none
  orderBy : List OrderBy := []
  limit : Option Limit := none
  deriving Repr

inductive IntervalFault where
  | notAfterStart (start stop : Instant)
  | stepNotPositive (step : Duration)
  deriving DecidableEq, Repr

def IntervalFault.message : IntervalFault → String
  | .notAfterStart start stop =>
    let first := start.describe
    let last := stop.describe
    s!"end {last} is not after start {first}"
  | .stepNotPositive step =>
    let length := step.render
    s!"step `{length}` must be positive"

def Selector.outputName? (selector : Selector) : Option String :=
  match selector.label, selector.expr with
  | some name, _ => some name
  | none, .column name => some name
  | none, _ => none

/-- The length of a bucket in seconds: the step, or else the whole interval. -/
def Interval.bucketSeconds (interval : Interval) : Except IntervalFault Int :=
  let span := interval.start.wholeSeconds interval.stop
  if span ≤ 0 then .error (.notAfterStart interval.start interval.stop)
  else match interval.step with
    | none => .ok span
    | some step => if step.seconds ≤ 0 then .error (.stepNotPositive step) else .ok step.seconds

def Query.addFilter (query : Query) (condition : Expr) : Query :=
  match query.filter with
  | none => { query with filter := some condition }
  | some before => { query with filter := some (.binary .and before condition) }

end Rollup
