import Rollup.Proofs.Time.Rfc3339
import Rollup.Query
import Rollup.Sql.Database

/-! The seconds between two instants, and the seconds that bounds of time name.

The time from one instant to another is counted to the nanosecond and then cut off to whole seconds.
A bound in SQL names a whole second, without what its instant has beyond it: ClickHouse is given the
second itself, and the other databases what a clock shows, which is one second later in a leap
second.
-/

set_option autoImplicit false

namespace Rollup

namespace Instant
variable {first last : Instant}

/-! ## The time between instants -/

/-- The nanoseconds since the start of 1970. -/
def reading (t : Instant) : Int := t.seconds * nanosPerSecond + t.nanos

theorem elapsed_eq (first last : Instant) : first.elapsed last =
    last.reading - first.reading + first.leapCorrection last * nanosPerSecond := by
  unfold elapsed reading nanosPerSecond
  omega

theorem leapCorrection_of_ordinary (early : first.nanos < nanosPerSecond)
    (late : last.nanos < nanosPerSecond) : first.leapCorrection last = 0 := by
  unfold leapCorrection
  rw [if_neg fun leap => Nat.not_le.mpr early leap.2, if_neg fun leap => Nat.not_le.mpr late leap.2]

theorem isBefore_of_elapsed (early : first.nanos < 2 * nanosPerSecond)
    (late : last.nanos < 2 * nanosPerSecond) (long : nanosPerSecond ≤ first.elapsed last) :
    first.isBefore last = true := by
  rw [elapsed_eq] at long
  simp only [isBefore, Bool.or_eq_true, Bool.and_eq_true, decide_eq_true_eq, beq_iff_eq]
  unfold reading leapCorrection secondOfDay secondsPerDay at long
  unfold nanosPerSecond at early late long
  -- A leap second is counted only between two different times of day.
  split at long
  · omega
  split at long <;> omega

theorem wholeSeconds_of_nonneg (later : 0 ≤ first.elapsed last) :
    first.wholeSeconds last = first.elapsed last / nanosPerSecond :=
  Int.tdiv_eq_ediv_of_nonneg later

theorem wholeSeconds_pos_iff :
    0 < first.wholeSeconds last ↔ nanosPerSecond ≤ first.elapsed last := by
  by_cases later : 0 ≤ first.elapsed last
  · rw [wholeSeconds_of_nonneg later]
    unfold nanosPerSecond
    omega
  · -- A negative time is cut off towards zero.
    have turned : 0 ≤ (-first.elapsed last).tdiv nanosPerSecond :=
      Int.tdiv_nonneg (by omega) (by decide)
    rw [Int.neg_tdiv] at turned
    have none : first.wholeSeconds last ≤ 0 := Int.neg_nonneg.mp turned
    unfold nanosPerSecond
    omega

end Instant

namespace Rfc3339

/-! ## Stamps -/

/-- The second since 1970 of a date and a time of day. A sixtieth second is that of the next
minute. -/
def readStamp? (text : List Char) : Option Int := do
  let (date, rest) ← readDate? text
  let ((second, nanos), rest) ← readTime? (← readSeparator? rest)
  if rest.isEmpty then some (date.toDays * secondsPerDay + second + nanos / nanosPerSecond)
  else none

theorem readStamp?_stamp {t : Instant} (fits : t.nanos < 2 * nanosPerSecond) :
    readStamp? t.stamp.toList = some (t.seconds + (t.nanos / nanosPerSecond : Nat)) := by
  have time := readTime?_append fits (rfl : readFraction? [] = some (0, []))
  have separated : readSeparator? (' ' :: timeText t) = some (timeText t) := rfl
  have days : t.date.toDays = t.seconds / secondsPerDay := Date.toDays_ofDays _
  have ofDay : (t.secondOfDay : Int) = t.seconds % secondsPerDay :=
    Int.toNat_of_nonneg (Int.emod_nonneg _ (by decide))
  have shown : t.clockSecond = t.secondOfDay % 60 + t.nanos / nanosPerSecond := rfl
  rw [List.append_nil] at time
  rw [Instant.stamp, String.toList_ofList, readStamp?, readDate?_dateText]
  simp only [bind, Option.bind, separated, time, List.isEmpty_nil, if_true, days]
  unfold secondsPerDay at ofDay ⊢
  unfold nanosPerSecond at shown ⊢
  congr 1
  by_cases sixtieth : t.clockSecond = 60
  · rw [if_pos sixtieth]
    omega
  · rw [if_neg sixtieth]
    omega

end Rfc3339

/-! ## Bounds -/

namespace Sql
variable {database : Database} {t : Instant}

/-- The second since 1970 that a constant of time names. -/
def Expr.second? : Expr → Option Int
  | .function "fromUnixTimestamp" [.literal (.int seconds)] false => some seconds
  | .typed "TIMESTAMP" text | .literal (.string text) => Rfc3339.readStamp? text.toList
  | _ => none

/-- The second that a bound names. -/
def Database.second (database : Database) (t : Instant) : Int :=
  match database with
  | .clickhouse => t.seconds
  | _ => t.seconds + (t.nanos / nanosPerSecond : Nat)

/-- The nanoseconds of an instant that a bound leaves out. -/
def Database.dropped (database : Database) (t : Instant) : Nat :=
  match database with
  | .clickhouse => t.nanos
  | _ => t.clockNanos

theorem second?_timestamp (fits : t.nanos < 2 * nanosPerSecond) :
    (database.dialect.timestamp t).second? = some (database.second t) := by
  have stamp := Rfc3339.readStamp?_stamp fits
  cases database with
  | clickhouse => rfl
  | _ => exact stamp

theorem reading_eq (database : Database) (t : Instant) :
    t.reading = database.second t * nanosPerSecond + database.dropped t := by
  unfold Instant.reading Database.second Database.dropped Instant.clockNanos nanosPerSecond
  cases database <;> dsimp only <;> omega

theorem dropped_of_ordinary (ordinary : t.nanos < nanosPerSecond) :
    database.dropped t = t.nanos := by
  cases database with
  | clickhouse => rfl
  | _ => exact Nat.mod_eq_of_lt ordinary

end Sql

/-! ## Intervals -/

namespace Interval
variable {interval : Interval} {seconds : Int}

theorem bucketSeconds_eq_ok : interval.bucketSeconds = .ok seconds ↔
    nanosPerSecond ≤ interval.start.elapsed interval.stop ∧
      (∀ step ∈ interval.step, 0 < step.seconds) ∧
        seconds = (interval.step.map (·.seconds)).getD
          (interval.start.wholeSeconds interval.stop) := by
  rw [← Instant.wholeSeconds_pos_iff, bucketSeconds]
  split
  · rename_i short
    exact ⟨nofun, fun ⟨long, _⟩ => absurd long (Int.not_lt.mpr short)⟩
  · rename_i long
    have long := Int.not_le.mp long
    cases interval.step with
    | none => simp [long, eq_comm]
    | some step =>
      by_cases positive : 0 < step.seconds
      · simp [long, positive, Int.not_le.mpr positive, eq_comm]
      · simp [positive, Int.not_lt.mp positive]

end Interval

end Rollup
