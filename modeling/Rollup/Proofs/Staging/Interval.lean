import Rollup.Proofs.Staging.Routing
import Rollup.Proofs.Time.Span

/-! The interval that is filtered and the length that is divided by.

The first stage compares the time with the two bounds of the interval, whose seconds are cut off one
by one. The length of an interval without a step is cut off after subtracting. So the two agree just
if the bounds together do not leave out as much as a second, or less than nothing: outside of leap
seconds, if the end is at least as far into its second as the start is into its own.
-/

set_option autoImplicit false

namespace Rollup

namespace Interval
variable {interval : Interval} {database : Sql.Database} {seconds : Int}

/-- The nanoseconds that the bounds of an interval leave out of its length. -/
def leftOut (interval : Interval) (database : Sql.Database) : Int :=
  interval.start.leapCorrection interval.stop * nanosPerSecond +
    (database.dropped interval.stop - database.dropped interval.start)

/-- The length of an interval is the distance of its bounds and the whole seconds they leave out. -/
theorem seconds_eq (whole : interval.step = none) (ok : interval.bucketSeconds = .ok seconds) :
    seconds = database.second interval.stop - database.second interval.start +
      interval.leftOut database / nanosPerSecond := by
  obtain ⟨long, -, same⟩ := bucketSeconds_eq_ok.mp ok
  have later : 0 ≤ interval.start.elapsed interval.stop :=
    Int.le_trans (Int.natCast_nonneg _) long
  rw [whole, Option.map_none, Option.getD_none, Instant.wholeSeconds_of_nonneg later,
    Instant.elapsed_eq, Sql.reading_eq database interval.start,
    Sql.reading_eq database interval.stop] at same
  rw [same, leftOut]
  unfold nanosPerSecond
  omega

/-- Outside of leap seconds, the bounds leave out less than a second, and less than nothing if the
start is further into its second than the end. -/
theorem seconds_eq_iff (whole : interval.step = none) (ok : interval.bucketSeconds = .ok seconds)
    (first : interval.start.nanos < nanosPerSecond) (last : interval.stop.nanos < nanosPerSecond) :
    seconds = database.second interval.stop - database.second interval.start ↔
      interval.start.nanos ≤ interval.stop.nanos := by
  have same : seconds = database.second interval.stop - database.second interval.start +
      interval.leftOut database / nanosPerSecond := seconds_eq whole ok
  rw [same, leftOut, Instant.leapCorrection_of_ordinary first last, Sql.dropped_of_ordinary first,
    Sql.dropped_of_ordinary last]
  unfold nanosPerSecond at first last ⊢
  omega

end Interval

namespace Compiler
variable {c : Compiler} {query : Query} {plan : Plan}

theorem laid_of_planWithColumns {columns : List OutputColumn}
    (ok : c.planWithColumns query = .ok (plan, columns)) :
    ∃ seconds a, bucketSeconds query = .ok seconds ∧
      c.analyze query ⟨c.schema, c.registry, seconds⟩ = .ok a ∧
      c.layOut query seconds a = .ok (plan, columns) := by
  unfold planWithColumns at ok
  split at ok
  · cases ok
  · dsimp only at ok
    split at ok
    · cases ok
    · simp only [bind_eq_ok] at ok
      obtain ⟨seconds, bucket, a, analyzed, laid⟩ := ok
      exact ⟨seconds, a, bucket, analyzed, laid⟩

theorem filter_of_plan (ok : c.plan query = .ok plan) :
    ∃ stage rest, plan.stages[0]? = some stage ∧
      stage.filter = Sql.conjunction? (c.timeBounds query ++ rest) := by
  obtain ⟨seconds, a, carried, stages, orderBy, accepts⟩ := accepts_of_plan ok
  obtain ⟨checked, -, built⟩ := StageBuilder.built_build accepts.built
  obtain ⟨rows, groups, results, -, -, -, routes⟩ :=
    StageBuilder.routes_of_built built checked orderBy (query.limit.map rowWindow)
  rw [timeConditions_builder, ← accepts.plan] at routes
  have deep : 0 < plan.stages.length := Nat.zero_lt_of_lt routes.grouped
  refine ⟨plan.stages[0], rows ++ (if 0 + 1 = plan.depth then results else []),
    List.getElem?_eq_getElem deep, ?_⟩
  rw [routes.filter 0 _ (List.getElem?_eq_getElem deep), if_pos rfl, List.append_assoc]

/-- A plan tests two bounds of the time first, and is made for buckets of a length. -/
structure Bounded (c : Compiler) (query : Query) (plan : Plan) (low high : Sql.Expr)
    (seconds : Int) : Prop where
  filter : ∃ stage rest, plan.stages[0]? = some stage ∧ stage.filter = Sql.conjunction?
    (.binary .gte (.named (c.timeColumn query)) low ::
      .binary .lt (.named (c.timeColumn query)) high :: rest)
  divisor : ∃ a columns, c.analyze query ⟨c.schema, c.registry, some seconds⟩ = .ok a ∧
    c.layOut query (some seconds) a = .ok (plan, columns)

theorem bounded_of_plan {interval : Interval} (timed : query.interval = some interval)
    (ok : c.plan query = .ok plan) : ∃ seconds, interval.bucketSeconds = .ok seconds ∧
      c.Bounded query plan (c.dialect.timestamp interval.start)
        (c.dialect.timestamp interval.stop) seconds := by
  obtain ⟨stage, rest, place, filter⟩ := filter_of_plan ok
  obtain ⟨⟨plan, columns⟩, laid, rfl⟩ := bind_pure_eq_ok.mp ok
  obtain ⟨length, a, bucket, analyzed, laid⟩ := laid_of_planWithColumns laid
  simp only [timeBounds, timed, List.cons_append, List.nil_append] at filter
  simp only [bucketSeconds, timed] at bucket
  split at bucket
  · rename_i seconds accepted
    cases bucket
    exact ⟨seconds, accepted, ⟨stage, rest, place, filter⟩, a, columns, analyzed, laid⟩
  · cases bucket

/-- An interval is accepted if it is a second long or longer and its step is positive, and it is
later at its end. Without a step, its length is that between the bounds that are filtered, but for
the whole seconds that these leave out. -/
theorem measured_plan (interval : Interval) (database : Sql.Database)
    (first : interval.start.nanos < 2 * nanosPerSecond)
    (last : interval.stop.nanos < 2 * nanosPerSecond) :
    ((∃ seconds, interval.bucketSeconds = .ok seconds) ↔
      nanosPerSecond ≤ interval.start.elapsed interval.stop ∧
        ∀ step ∈ interval.step, 0 < step.seconds) ∧
    (∀ seconds, interval.bucketSeconds = .ok seconds →
      interval.start.isBefore interval.stop = true) ∧
    ∃ low high, (database.dialect.timestamp interval.start).second? = some low ∧
      (database.dialect.timestamp interval.stop).second? = some high ∧
      (∀ seconds, interval.step = none → interval.bucketSeconds = .ok seconds →
        seconds = high - low + interval.leftOut database / nanosPerSecond ∧
        (interval.start.nanos < nanosPerSecond → interval.stop.nanos < nanosPerSecond →
          (seconds = high - low ↔ interval.start.nanos ≤ interval.stop.nanos))) ∧
      ∀ (schema : Schema) (registry : Registry) (query : Query) (plan : Plan),
        query.interval = some interval →
        Compiler.plan ⟨schema, database.dialect, registry⟩ query = .ok plan →
        ∃ seconds, interval.bucketSeconds = .ok seconds ∧
          Bounded ⟨schema, database.dialect, registry⟩ query plan
            (database.dialect.timestamp interval.start) (database.dialect.timestamp interval.stop)
            seconds := by
  refine ⟨⟨?_, ?_⟩, ?_, database.second interval.start, database.second interval.stop,
    Sql.second?_timestamp first, Sql.second?_timestamp last, ?_, ?_⟩
  · rintro ⟨seconds, ok⟩
    obtain ⟨long, positive, -⟩ := Interval.bucketSeconds_eq_ok.mp ok
    exact ⟨long, positive⟩
  · rintro ⟨long, positive⟩
    exact ⟨_, Interval.bucketSeconds_eq_ok.mpr ⟨long, positive, rfl⟩⟩
  · intro seconds ok
    exact Instant.isBefore_of_elapsed first last (Interval.bucketSeconds_eq_ok.mp ok).1
  · intro seconds whole ok
    exact ⟨Interval.seconds_eq whole ok, Interval.seconds_eq_iff whole ok⟩
  · intro schema registry query plan timed ok
    exact bounded_of_plan timed ok

end Compiler

def Interval.firstHour : Interval := ⟨⟨0, 0⟩, ⟨3600, 0⟩, none, none⟩

def Query.hourlyLoad : Query where
  selectors := [⟨.call "rate" [.column "cpu"], some "load"⟩]
  interval := some .firstHour

namespace Compiler

theorem measured_hourlyLoad : ∃ plan seconds, hosts.plan .hourlyLoad = .ok plan ∧
    Interval.firstHour.bucketSeconds = .ok seconds ∧
    hosts.Bounded .hourlyLoad plan (.typed "TIMESTAMP" "1970-01-01 00:00:00")
      (.typed "TIMESTAMP" "1970-01-01 01:00:00") seconds ∧ seconds = 3600 := by
  obtain ⟨plan, ok⟩ : ∃ plan, hosts.plan .hourlyLoad = .ok plan :=
    isSome_toOption.mp (by decide +kernel)
  obtain ⟨-, -, low, high, first, last, length, bounds⟩ :=
    measured_plan .firstHour .postgres (by decide) (by decide)
  obtain ⟨seconds, is, bounded⟩ := bounds .hosts .builtin .hourlyLoad plan rfl ok
  have low : low = 0 := by
    have read : (Sql.Database.postgres.dialect.timestamp ⟨0, 0⟩).second? = some 0 := by
      decide +kernel
    exact Option.some.inj (first.symm.trans read)
  have high : high = 3600 := by
    have read : (Sql.Database.postgres.dialect.timestamp ⟨3600, 0⟩).second? = some 3600 := by
      decide +kernel
    exact Option.some.inj (last.symm.trans read)
  have same := ((length seconds rfl is).2 (by decide) (by decide)).mpr (by decide)
  have start : Sql.Database.postgres.dialect.timestamp ⟨0, 0⟩ =
      .typed "TIMESTAMP" "1970-01-01 00:00:00" := by
    show Sql.Expr.typed _ _ = _
    congr 1
  have stop : Sql.Database.postgres.dialect.timestamp ⟨3600, 0⟩ =
      .typed "TIMESTAMP" "1970-01-01 01:00:00" := by
    show Sql.Expr.typed _ _ = _
    congr 1
  refine ⟨plan, seconds, ok, is, ?_, by omega⟩
  rw [← start, ← stop]
  exact bounded

end Compiler

def Interval.halfSecond : Interval :=
  ⟨⟨0, 900000000⟩, ⟨1, 400000000⟩, some ⟨1, .minutes⟩, none⟩

/-- A little more than a second, from the end of one second to the start of the next but one. -/
def Interval.unevenSecond : Interval := ⟨⟨0, 900000000⟩, ⟨2, 100000000⟩, none, none⟩

/-- Half a second is refused as if it ended before it starts, and what is filtered as two seconds is
divided by one. -/
theorem Interval.measured_fractions :
    halfSecond.start.isBefore halfSecond.stop = true ∧
      halfSecond.bucketSeconds = .error (.notAfterStart halfSecond.start halfSecond.stop) ∧
      unevenSecond.bucketSeconds = .ok 1 ∧ ∀ database ∈ Sql.Database.all,
        (database.dialect.timestamp unevenSecond.start).second? = some 0 ∧
          (database.dialect.timestamp unevenSecond.stop).second? = some 2 := by
  decide +kernel

end Rollup
