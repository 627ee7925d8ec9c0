import Rollup.Function.Aggregate
import Rollup.Sql.Expr
import Rollup.Text.Quoted
import Rollup.Time.Rfc3339

/-! What differs from database to database.

A dialect says how names and literals are spelled and which means a database has for the things
that standard SQL lacks: picking a value by time, joining texts, and cutting time into buckets. What
a dialect does not say is as in standard SQL.
-/

set_option autoImplicit false

namespace Rollup.Sql

structure Dialect where
  name : String
  quoteName : String → String
  quoteString : String → String := Text.quote '\''
  boolText : Bool → String
  nullText : String := "NULL"
  timestamp : Instant → Expr := fun t => .typed "TIMESTAMP" t.stamp
  /-- The native name of a function, if it is not the common one. -/
  rename : String → Option String := fun _ => none
  windowed : Aggregate → Bool := Aggregate.picksByTime
  /-- The first (or, with `true`, the last) value by time, as an aggregate. -/
  pick : Bool → Expr → Expr → Option Expr := fun _ _ _ => none
  join : Expr → Option Expr := fun value => some (.apply "string_agg" [value, .ofString ","])
  countDistinct : Expr → Expr := fun value => .function "count" [value] true
  /-- The seconds since 1970 of a time, floored to a multiple of a number of seconds. -/
  timeFloor : Expr → Int → Option Expr := fun _ _ => none
  /-- Whether a condition on rows sees the names given to the fields beside it. -/
  aliasInWhere : Bool := false

-- The last value is the first one in descending order.
def pickWindow (last : Bool) (value : Expr) (partitionBy : List Expr) (time : Expr) : Expr :=
  .window (.apply "first_value" [value]) partitionBy
    [⟨time, if last then some .descending else none⟩]

def floorTo (epoch : Expr) (seconds : Int) : Expr :=
  .binary .times (.apply "floor" [.binary .divide epoch (.ofInt seconds)]) (.ofInt seconds)

def perSecond (sum : Expr) (seconds : Int) : Expr :=
  -- The divisor is no integer, so that the quotient is none either.
  .binary .divide sum (.literal (.float (.ofInt seconds)))

def renameBy (table : List (String × String)) (name : String) : Option String :=
  (table.find? fun entry => Text.sameWord entry.1 name).map (·.2)

def trueOrFalse (value : Bool) : String := if value then "true" else "false"

def oneOrZero (value : Bool) : String := if value then "1" else "0"

namespace Dialect

def clickhouse : Dialect where
  name := "clickhouse"
  quoteName := Text.quote '"'
  boolText := trueOrFalse
  timestamp t := .apply "fromUnixTimestamp" [.ofInt t.seconds]
  rename := renameBy [("length", "lengthUTF8"), ("lower", "lowerUTF8"), ("upper", "upperUTF8")]
  windowed _ := false
  pick last value time := some (.apply (if last then "argMax" else "argMin") [value, time])
  join value :=
    some (.apply "arrayStringConcat" [.apply "groupArray" [value], .ofString ","])
  countDistinct value := .apply "uniqExact" [value]
  timeFloor time seconds :=
    some (.apply "toUnixTimestamp"
      [.apply "toStartOfInterval" [time, .interval seconds "SECOND"]])
  aliasInWhere := true

def duckdb : Dialect where
  name := "duckdb"
  quoteName := Text.quote '"'
  boolText := trueOrFalse
  windowed _ := false
  pick last value time := some (.apply (if last then "arg_max" else "arg_min") [value, time])
  timeFloor time seconds := some (floorTo (.apply "epoch" [time]) seconds)

def h2 : Dialect where
  name := "h2"
  quoteName := Text.quote '"'
  boolText := trueOrFalse
  rename := renameBy [("ceil", "CEILING")]
  join value := some (.apply "LISTAGG" [value, .ofString ","])
  timeFloor time seconds :=
    let epoch := .apply "DATEDIFF"
      [.ofString "SECOND", .typed "TIMESTAMP" "1970-01-01 00:00:00", time]
    some (floorTo epoch seconds)

def mysql : Dialect where
  name := "mysql"
  quoteName := Text.quote '\x60'
  boolText := oneOrZero
  timestamp t := .ofString t.stamp
  rename := renameBy [("length", "char_length")]
  join value := some (.apply "group_concat" [value])
  timeFloor time seconds := some (floorTo (.apply "unix_timestamp" [time]) seconds)

def postgres : Dialect where
  name := "postgres"
  quoteName := Text.quote '"'
  boolText := trueOrFalse
  timeFloor time seconds :=
    some (floorTo (.apply "date_part" [.ofString "epoch", time]) seconds)

end Dialect

end Rollup.Sql
