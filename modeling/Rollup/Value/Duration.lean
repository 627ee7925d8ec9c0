import Rollup.Number.Word
import Rollup.Text.Character
import Rollup.Value.Error

/-! Durations: a whole number and a unit, as in `90s` or `1h`.

A duration is a number of seconds together with the unit it was written in. The unit matters only
for writing it again: two durations of equal length are the same key.
-/

set_option autoImplicit false

namespace Rollup

inductive DurationUnit where
  | seconds
  | minutes
  | hours
  | days
  deriving DecidableEq, Repr

def DurationUnit.ofSuffix? : Char → Option DurationUnit
  | 's' => some .seconds
  | 'm' => some .minutes
  | 'h' => some .hours
  | 'd' => some .days
  | _ => none

def DurationUnit.suffix : DurationUnit → Char
  | .seconds => 's'
  | .minutes => 'm'
  | .hours => 'h'
  | .days => 'd'

def DurationUnit.scale : DurationUnit → Int
  | .seconds => 1
  | .minutes => 60
  | .hours => 3600
  | .days => 86400

structure Duration where
  seconds : Int
  unit : DurationUnit
  deriving DecidableEq, Repr

namespace Duration

def ofSeconds (seconds : Int) : Duration := ⟨seconds, .seconds⟩

/-- The duration of a count of units, unless the count or the seconds leave the range of a word. -/
def ofCount (count : Int) (unit : DurationUnit) : Except ValueFault Duration :=
  if Number.fitsWord count && Number.fitsWord (count * unit.scale) then
    .ok ⟨count * unit.scale, unit⟩
  else .error .durationOutOfRange

def ofParts (body : List Char) (last : Char) : Except ValueFault Duration :=
  match DurationUnit.ofSuffix? last with
  | none => .error (.unknownDurationUnit last)
  | some unit =>
    match Number.readInt? body with
    | none => .error .durationNotInteger
    | some count => ofCount count unit

def ofChars (text : List Char) : Except ValueFault Duration :=
  match text.getLast? with
  | none => .error .emptyDuration
  | some last =>
    if Text.byteLength text < 2 then .error .shortDuration else ofParts text.dropLast last

def parse (text : String) : Except ValueError Duration :=
  (ofChars text.toList).mapError fun fault => ⟨text, fault⟩

def render (d : Duration) : String :=
  toString (d.seconds.tdiv d.unit.scale) ++ d.unit.suffix.toString

def sameKey (left right : Duration) : Bool :=
  left.seconds == right.seconds

end Duration

end Rollup
