import Rollup.Time.Civil

/-! Points in time, to the nanosecond.

An instant is a number of seconds since the start of 1970 in universal time and the nanoseconds
within that second. A second that is followed by a leap second holds up to twice as many
nanoseconds, those of the leap second last.
-/

set_option autoImplicit false

namespace Rollup

def nanosPerSecond : Nat := 1000000000

def secondsPerDay : Nat := 86400

structure Instant where
  seconds : Int
  nanos : Nat
  deriving DecidableEq, Repr

namespace Instant

def isBefore (a b : Instant) : Bool :=
  a.seconds < b.seconds || (a.seconds == b.seconds && a.nanos < b.nanos)

def secondOfDay (t : Instant) : Nat := (t.seconds % secondsPerDay).toNat

def date (t : Instant) : Date := Date.ofDays (t.seconds / secondsPerDay)

/-- The leap second, counted or not, that lies between two times of day. -/
def leapCorrection (first last : Instant) : Int :=
  if first.secondOfDay < last.secondOfDay ∧ nanosPerSecond ≤ first.nanos then 1
  else if last.secondOfDay < first.secondOfDay ∧ nanosPerSecond ≤ last.nanos then -1
  else 0

def elapsed (first last : Instant) : Int :=
  (last.seconds - first.seconds + leapCorrection first last) * nanosPerSecond +
    (last.nanos - first.nanos)

def wholeSeconds (first last : Instant) : Int :=
  (elapsed first last).tdiv nanosPerSecond

/-- The second of the minute as a clock shows it, which is sixty in a leap second. -/
def clockSecond (t : Instant) : Nat := t.secondOfDay % 60 + t.nanos / nanosPerSecond

def clockNanos (t : Instant) : Nat := t.nanos % nanosPerSecond

end Instant

end Rollup
