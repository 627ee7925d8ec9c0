import Rollup.Proofs.Sql.Expr
import Rollup.Sql.Database

/-! The words of expressions that are neither keywords nor quoted: names of functions, units and
types.

A vocabulary says which of them may stand in an expression. The means of a known database name the
functions of that database and two fixed words, whatever they are given.
-/

set_option autoImplicit false

namespace Rollup.Sql

/-- The names of functions, and the units and types, that may stand in an expression. -/
structure Vocabulary where
  function : String → Prop
  word : String → Prop

/-! ## Expressions -/

namespace Expr

/-- Whether the words of a node are in a vocabulary; what is under a window is a call. -/
def NamesIn (v : Vocabulary) : Expr → Prop
  | .function name _ _ => v.function name
  | .window (.function ..) _ _ => True
  | .window .. => False
  | .interval _ unit => v.word unit
  | .typed type _ => v.word type
  | _ => True

def KeepsTo (v : Vocabulary) (e : Expr) : Prop := ∀ node ∈ e.nodes, node.NamesIn v

variable {v : Vocabulary} {left right operand : Expr} {args values : List Expr} {name : String}
  {distinct negated : Bool}

theorem keepsTo_binary {op : BinaryOp} :
    (binary op left right).KeepsTo v ↔ left.KeepsTo v ∧ right.KeepsTo v :=
  forall_nodes_binary.trans (and_iff_right trivial)

theorem keepsTo_unary {op : UnaryOp} : (unary op operand).KeepsTo v ↔ operand.KeepsTo v :=
  forall_nodes_unary.trans (and_iff_right trivial)

theorem keepsTo_function : (function name args distinct).KeepsTo v ↔
    v.function name ∧ ∀ arg ∈ args, arg.KeepsTo v :=
  forall_nodes_function

theorem keepsTo_apply (known : v.function name) (each : ∀ arg ∈ args, arg.KeepsTo v) :
    (apply name args).KeepsTo v :=
  keepsTo_function.mpr ⟨known, each⟩

theorem keepsTo_inList : (inList operand values negated).KeepsTo v ↔
    operand.KeepsTo v ∧ ∀ value ∈ values, value.KeepsTo v :=
  forall_nodes_inList.trans (and_iff_right trivial)

theorem keepsTo_isNull : (isNull operand negated).KeepsTo v ↔ operand.KeepsTo v :=
  forall_nodes_isNull.trans (and_iff_right trivial)

theorem keepsTo_window {partitionBy : List Expr} {orderBy : List (SortKey Expr)} :
    (window (function name args distinct) partitionBy orderBy).KeepsTo v ↔
      (function name args distinct).KeepsTo v ∧ (∀ part ∈ partitionBy, part.KeepsTo v) ∧
        ∀ order ∈ orderBy, order.key.KeepsTo v :=
  forall_nodes_window.trans (and_iff_right trivial)

theorem KeepsTo.call {call : Expr} {partitionBy : List Expr} {orderBy : List (SortKey Expr)}
    (keeps : (window call partitionBy orderBy).KeepsTo v) :
    ∃ name args distinct, call = .function name args distinct := by
  have is := keeps _ List.mem_cons_self
  cases call with
  | function name args distinct => exact ⟨name, args, distinct, rfl⟩
  | _ => cases is

@[simp] theorem keepsTo_column (table : Option String) (name : String) :
    (column table name).KeepsTo v :=
  List.forall_mem_singleton.mpr trivial

@[simp] theorem keepsTo_literal (value : Literal) : (literal value).KeepsTo v :=
  List.forall_mem_singleton.mpr trivial

@[simp] theorem keepsTo_star (table : Option String) : (star table).KeepsTo v :=
  List.forall_mem_singleton.mpr trivial

theorem keepsTo_interval {count : Int} {unit : String} :
    (interval count unit).KeepsTo v ↔ v.word unit :=
  List.forall_mem_singleton

theorem keepsTo_typed {type text : String} : (typed type text).KeepsTo v ↔ v.word type :=
  List.forall_mem_singleton

end Expr

/-! ## The means of the known databases -/

/-- The functions that every database is asked for by the same names. -/
def commonFunctions : List String := ["sum", "count", "avg", "min", "max", "first_value"]

def Database.functions : Database → List String
  | .clickhouse => commonFunctions ++ ["fromUnixTimestamp", "toUnixTimestamp", "toStartOfInterval",
    "argMin", "argMax", "groupArray", "arrayStringConcat", "uniqExact", "lengthUTF8", "lowerUTF8",
    "upperUTF8"]
  | .duckdb => commonFunctions ++ ["epoch", "floor", "arg_min", "arg_max", "string_agg"]
  | .h2 => commonFunctions ++ ["DATEDIFF", "floor", "LISTAGG", "CEILING"]
  | .mysql => commonFunctions ++ ["unix_timestamp", "floor", "group_concat", "char_length"]
  | .postgres => commonFunctions ++ ["date_part", "floor", "string_agg"]

/-- The units and types that databases are asked for. -/
def fixedWords : List String := ["SECOND", "TIMESTAMP"]

/-- Vocabularies with the fixed words of a database. -/
structure Vocabulary.Covers (v : Vocabulary) (database : Database) : Prop where
  functions : ∀ name ∈ database.functions, v.function name
  words : ∀ word ∈ fixedWords, v.word word

theorem Vocabulary.Covers.common {v : Vocabulary} {database : Database}
    (covers : v.Covers database) : ∀ name ∈ commonFunctions, v.function name := by
  intro name listed
  refine covers.functions name ?_
  cases database <;> exact List.mem_append_left _ listed

/-- Dialects whose means keep to a vocabulary. -/
structure Dialect.KeepsTo (v : Vocabulary) (d : Dialect) : Prop where
  timestamp (t : Instant) : (d.timestamp t).KeepsTo v
  timeFloor {time e : Expr} {seconds : Int} :
    d.timeFloor time seconds = some e → time.KeepsTo v → e.KeepsTo v
  pick {last : Bool} {value time e : Expr} :
    d.pick last value time = some e → value.KeepsTo v → time.KeepsTo v → e.KeepsTo v
  join {value e : Expr} : d.join value = some e → value.KeepsTo v → e.KeepsTo v
  countDistinct {value : Expr} : value.KeepsTo v → (d.countDistinct value).KeepsTo v

variable {v : Vocabulary}

section
variable {value time epoch : Expr} {name text : String} (known : v.function name)
include known

theorem keepsTo_single (keeps : value.KeepsTo v) : (Expr.apply name [value]).KeepsTo v :=
  Expr.keepsTo_apply known (by simpa using keeps)

theorem keepsTo_pair (first : value.KeepsTo v) (second : time.KeepsTo v) :
    (Expr.apply name [value, time]).KeepsTo v :=
  Expr.keepsTo_apply known (by simp [first, second])

theorem keepsTo_joined (keeps : value.KeepsTo v) :
    (Expr.apply name [value, .ofString text]).KeepsTo v :=
  keepsTo_pair known keeps (Expr.keepsTo_literal _)

theorem keepsTo_distinct (keeps : value.KeepsTo v) : (Expr.function name [value] true).KeepsTo v :=
  Expr.keepsTo_function.mpr ⟨known, by simpa using keeps⟩

omit known in
theorem keepsTo_floorTo (floor : v.function "floor") (keeps : epoch.KeepsTo v) (seconds : Int) :
    (floorTo epoch seconds).KeepsTo v := by
  have number : (Expr.ofInt seconds).KeepsTo v := Expr.keepsTo_literal _
  have quotient : (Expr.binary .divide epoch (.ofInt seconds)).KeepsTo v :=
    Expr.keepsTo_binary.mpr ⟨keeps, number⟩
  exact Expr.keepsTo_binary.mpr ⟨keepsTo_single floor quotient, number⟩

end

namespace Dialect

theorem keepsTo_clickhouse (covers : v.Covers .clickhouse) : Dialect.KeepsTo v clickhouse where
  timestamp t := keepsTo_single (covers.functions _ (by decide)) (Expr.keepsTo_literal _)
  timeFloor := by
    rintro time e seconds ⟨rfl⟩ keeps
    have unit : (Expr.interval seconds "SECOND").KeepsTo v :=
      Expr.keepsTo_interval.mpr (covers.words _ (by decide))
    exact keepsTo_single (covers.functions _ (by decide))
      (keepsTo_pair (covers.functions _ (by decide)) keeps unit)
  pick := by
    rintro last value time e ⟨rfl⟩ first second
    exact keepsTo_pair (covers.functions _ (by cases last <;> decide)) first second
  join := by
    rintro value e ⟨rfl⟩ keeps
    exact keepsTo_joined (covers.functions _ (by decide))
      (keepsTo_single (covers.functions _ (by decide)) keeps)
  countDistinct keeps := keepsTo_single (covers.functions _ (by decide)) keeps

theorem keepsTo_duckdb (covers : v.Covers .duckdb) : Dialect.KeepsTo v duckdb where
  timestamp t := Expr.keepsTo_typed.mpr (covers.words _ (by decide))
  timeFloor := by
    rintro time e seconds ⟨rfl⟩ keeps
    exact keepsTo_floorTo (covers.functions _ (by decide))
      (keepsTo_single (covers.functions _ (by decide)) keeps) seconds
  pick := by
    rintro last value time e ⟨rfl⟩ first second
    exact keepsTo_pair (covers.functions _ (by cases last <;> decide)) first second
  join := by
    rintro value e ⟨rfl⟩ keeps
    exact keepsTo_joined (covers.functions _ (by decide)) keeps
  countDistinct keeps := keepsTo_distinct (covers.functions _ (by decide)) keeps

theorem keepsTo_h2 (covers : v.Covers .h2) : Dialect.KeepsTo v h2 where
  timestamp t := Expr.keepsTo_typed.mpr (covers.words _ (by decide))
  timeFloor := by
    rintro time e seconds ⟨rfl⟩ keeps
    have start : (Expr.typed "TIMESTAMP" "1970-01-01 00:00:00").KeepsTo v :=
      Expr.keepsTo_typed.mpr (covers.words _ (by decide))
    refine keepsTo_floorTo (covers.functions _ (by decide))
      (Expr.keepsTo_apply (covers.functions _ (by decide)) ?_) seconds
    simp [Expr.ofString, keeps, start]
  pick never := nomatch never
  join := by
    rintro value e ⟨rfl⟩ keeps
    exact keepsTo_joined (covers.functions _ (by decide)) keeps
  countDistinct keeps := keepsTo_distinct (covers.functions _ (by decide)) keeps

theorem keepsTo_mysql (covers : v.Covers .mysql) : Dialect.KeepsTo v mysql where
  timestamp t := Expr.keepsTo_literal _
  timeFloor := by
    rintro time e seconds ⟨rfl⟩ keeps
    exact keepsTo_floorTo (covers.functions _ (by decide))
      (keepsTo_single (covers.functions _ (by decide)) keeps) seconds
  pick never := nomatch never
  join := by
    rintro value e ⟨rfl⟩ keeps
    exact keepsTo_single (covers.functions _ (by decide)) keeps
  countDistinct keeps := keepsTo_distinct (covers.functions _ (by decide)) keeps

theorem keepsTo_postgres (covers : v.Covers .postgres) : Dialect.KeepsTo v postgres where
  timestamp t := Expr.keepsTo_typed.mpr (covers.words _ (by decide))
  timeFloor := by
    rintro time e seconds ⟨rfl⟩ keeps
    exact keepsTo_floorTo (covers.functions _ (by decide))
      (keepsTo_pair (covers.functions _ (by decide)) (Expr.keepsTo_literal _) keeps) seconds
  pick never := nomatch never
  join := by
    rintro value e ⟨rfl⟩ keeps
    exact keepsTo_joined (covers.functions _ (by decide)) keeps
  countDistinct keeps := keepsTo_distinct (covers.functions _ (by decide)) keeps

end Dialect

theorem keepsTo_dialect {database : Database} (covers : v.Covers database) :
    database.dialect.KeepsTo v := by
  cases database with
  | clickhouse => exact Dialect.keepsTo_clickhouse covers
  | duckdb => exact Dialect.keepsTo_duckdb covers
  | h2 => exact Dialect.keepsTo_h2 covers
  | mysql => exact Dialect.keepsTo_mysql covers
  | postgres => exact Dialect.keepsTo_postgres covers

end Rollup.Sql
