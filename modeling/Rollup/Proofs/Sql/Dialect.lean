import Rollup.Proofs.Sql.Expr
import Rollup.Sql.Database
import Rollup.Staging.Rendering

/-! What the means of a database do to expressions.

A picked value, a joined text, a distinct count and the start of a bucket are compound expressions
over what they are made of: they read nothing else, and they stay what they are where their parts
do. Every known database has the means that queries ask for (`Dialect.Able`).
-/

set_option autoImplicit false

namespace Rollup.Sql

/-- Compound expressions that are made of given parts and of literals. -/
structure Expr.Over (parts : List Expr) (e : Expr) : Prop where
  columns : e.columns ⊆ parts.flatMap Expr.columns
  kept (f : String → Option Expr) : (∀ part ∈ parts, part.substitute? f = some part) →
    e.substitute? f = some e
  compound : Renderer.isNull e = false

namespace Expr.Over

theorem function {parts args : List Expr} {name : String} {distinct : Bool}
    (each : ∀ arg ∈ args, arg ∈ parts ∨ arg.columns = [] ∧ ∀ f, arg.substitute? f = some arg) :
    (Expr.function name args distinct).Over parts where
  columns := by
    intro column member
    rw [Expr.columns, columnsEach_eq, List.mem_flatMap] at member
    obtain ⟨arg, listed, member⟩ := member
    rcases each arg listed with part | ⟨none, -⟩
    · exact List.mem_flatMap.mpr ⟨arg, part, member⟩
    · rw [none] at member
      cases member
  kept f fixed := by
    have same : substituteEach? f args = some args :=
      substituteEach?_eq_some (List.forall₂_same.mpr fun arg listed =>
        (each arg listed).elim (fixed arg) fun outside => outside.2 f)
    simp [substitute?, same]
  compound := rfl

-- An expression over one that is made of parts is made of these parts.
theorem trans {parts : List Expr} {inner e : Expr} (first : inner.Over parts)
    (second : e.Over [inner]) : e.Over parts where
  columns := by
    refine List.Subset.trans second.columns ?_
    rw [List.flatMap_singleton]
    exact first.columns
  kept f fixed := second.kept f fun part member =>
    List.mem_singleton.mp member ▸ first.kept f fixed
  compound := second.compound

end Expr.Over

theorem over_floorTo {parts : List Expr} {epoch : Expr} (made : epoch.Over parts) (seconds : Int) :
    (floorTo epoch seconds).Over parts := by
  refine made.trans ⟨?_, fun f fixed => ?_, rfl⟩
  · simp [floorTo, Expr.columns, Expr.columnsEach, Expr.ofInt, Expr.apply]
  · have same := fixed epoch List.mem_cons_self
    simp [floorTo, Expr.substitute?, Expr.substituteEach?, Expr.ofInt, Expr.apply, same]

/-- Dialects whose means are made of what they are given. -/
structure Dialect.Regular (d : Dialect) : Prop where
  timestamp (t : Instant) : (d.timestamp t).columns = []
  timeFloor {time e : Expr} {seconds : Int} : d.timeFloor time seconds = some e → e.Over [time]
  pick {last : Bool} {value time e : Expr} : d.pick last value time = some e → e.Over [value, time]
  join {value e : Expr} : d.join value = some e → e.Over [value]
  countDistinct (value : Expr) : (d.countDistinct value).Over [value]

/-! ## The known dialects -/

variable {name text : String} {value time : Expr}

theorem over_apply : (Expr.apply name [value]).Over [value] := .function fun _ listed => .inl listed

theorem over_distinct {distinct : Bool} : (Expr.function name [value] distinct).Over [value] :=
  .function fun _ listed => .inl listed

theorem over_picked : (Expr.apply name [value, time]).Over [value, time] :=
  .function fun _ listed => .inl listed

theorem over_joined : (Expr.apply name [value, .ofString text]).Over [value] := by
  refine .function fun arg listed => ?_
  rcases List.mem_cons.mp listed with rfl | listed
  · exact .inl List.mem_cons_self
  · obtain rfl := List.mem_singleton.mp listed
    exact .inr ⟨rfl, fun _ => rfl⟩

namespace Dialect

theorem regular_clickhouse : Dialect.Regular clickhouse where
  timestamp _ := rfl
  timeFloor := by
    rintro time e seconds ⟨rfl⟩
    refine Expr.Over.trans (.function fun arg listed => ?_) over_apply
    rcases List.mem_cons.mp listed with rfl | listed
    · exact .inl List.mem_cons_self
    · obtain rfl := List.mem_singleton.mp listed
      exact .inr ⟨rfl, fun _ => rfl⟩
  pick := by
    rintro last value time e ⟨rfl⟩
    exact over_picked
  join := by
    rintro value e ⟨rfl⟩
    exact Expr.Over.trans over_apply over_joined
  countDistinct _ := over_apply

theorem regular_duckdb : Dialect.Regular duckdb where
  timestamp _ := rfl
  timeFloor := by
    rintro time e seconds ⟨rfl⟩
    exact over_floorTo over_apply seconds
  pick := by
    rintro last value time e ⟨rfl⟩
    exact over_picked
  join := by
    rintro value e ⟨rfl⟩
    exact over_joined
  countDistinct _ := over_distinct

theorem regular_h2 : Dialect.Regular h2 where
  timestamp _ := rfl
  timeFloor := by
    rintro time e seconds ⟨rfl⟩
    refine over_floorTo (.function fun arg listed => ?_) seconds
    simp only [List.mem_cons, List.not_mem_nil, or_false] at listed
    rcases listed with rfl | rfl | rfl
    · exact .inr ⟨rfl, fun _ => rfl⟩
    · exact .inr ⟨rfl, fun _ => rfl⟩
    · exact .inl List.mem_cons_self
  -- There is no aggregate that picks by time.
  pick never := nomatch never
  join := by
    rintro value e ⟨rfl⟩
    exact over_joined
  countDistinct _ := over_distinct

theorem regular_mysql : Dialect.Regular mysql where
  timestamp _ := rfl
  timeFloor := by
    rintro time e seconds ⟨rfl⟩
    exact over_floorTo over_apply seconds
  pick never := nomatch never
  join := by
    rintro value e ⟨rfl⟩
    exact over_apply
  countDistinct _ := over_distinct

theorem regular_postgres : Dialect.Regular postgres where
  timestamp _ := rfl
  timeFloor := by
    rintro time e seconds ⟨rfl⟩
    refine over_floorTo (.function fun arg listed => ?_) seconds
    rcases List.mem_cons.mp listed with rfl | listed
    · exact .inr ⟨rfl, fun _ => rfl⟩
    · exact .inl listed
  pick never := nomatch never
  join := by
    rintro value e ⟨rfl⟩
    exact over_joined
  countDistinct _ := over_distinct

end Dialect

theorem regular_dialect (database : Database) : database.dialect.Regular := by
  cases database with
  | clickhouse => exact Dialect.regular_clickhouse
  | duckdb => exact Dialect.regular_duckdb
  | h2 => exact Dialect.regular_h2
  | mysql => exact Dialect.regular_mysql
  | postgres => exact Dialect.regular_postgres

/-- Dialects with a means for everything that queries ask for. -/
structure Dialect.Able (d : Dialect) : Prop where
  timeFloor (time : Expr) (seconds : Int) : (d.timeFloor time seconds).isSome = true
  join (value : Expr) : (d.join value).isSome = true
  pick (func : Aggregate) : func.picksByTime = true → d.windowed func = false →
    ∀ last value time, (d.pick last value time).isSome = true

theorem able_dialect (database : Database) : database.dialect.Able where
  timeFloor _ _ := by cases database <;> rfl
  join _ := by cases database <;> rfl
  pick func picks grouped _ _ _ := by
    cases database with
    | clickhouse => rfl
    | duckdb => rfl
    | _ => cases picks.symm.trans grouped

end Rollup.Sql
