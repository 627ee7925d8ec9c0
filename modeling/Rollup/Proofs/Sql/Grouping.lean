import Rollup.Proofs.Sql.Expr
import Rollup.Sql.Database

/-! Where aggregates and window functions may stand in a statement.

Both compute a value from several rows, and neither may stand inside the other or inside one of its
own kind. A statement that groups rows has one value of a column for a whole group only if it groups
by the column, so what it reads outside of aggregates has to be among what it groups by.
-/

set_option autoImplicit false

namespace Rollup.Sql

/-- The functions with which databases compute one value from a group of rows. -/
def aggregateNames : List String :=
  ["sum", "count", "avg", "min", "max", "uniqExact", "groupArray", "string_agg", "listagg",
    "group_concat", "argMin", "argMax", "arg_min", "arg_max"]

def isAggregateName (name : String) : Bool :=
  aggregateNames.any fun known => Text.sameWord known name

namespace Expr

def isAggregate : Expr → Bool
  | .function name _ _ => isAggregateName name
  | _ => false

/-- Whether an expression is computed from several rows. -/
def spansRows : Expr → Bool
  | .window _ _ _ => true
  | e => e.isAggregate

def hasAggregate (e : Expr) : Bool := e.nodes.any isAggregate

/-- No part of the expression is computed from several rows. -/
def IsRowWise (e : Expr) : Prop := ∀ node ∈ e.nodes, node.spansRows = false

/-- Nothing that is computed from several rows stands inside something else that is. -/
def Unnested (e : Expr) : Prop :=
  ∀ node ∈ e.nodes, node.spansRows = true → ∀ inner ∈ node.nodes.tail, inner.spansRows = false

mutual

/-- The names of the columns that are read outside of aggregates. -/
def ungrouped : Expr → List String
  | .column _ name => [name]
  | .literal _ | .star _ | .interval _ _ | .typed _ _ => []
  | .binary _ left right => ungrouped left ++ ungrouped right
  | .unary _ operand => ungrouped operand
  | .function name args _ => if isAggregateName name then [] else ungroupedEach args
  | .inList operand values _ => ungrouped operand ++ ungroupedEach values
  | .isNull operand _ => ungrouped operand
  | .window call partitionBy orderBy =>
    ungrouped call ++ ungroupedEach partitionBy ++ ungroupedKeys orderBy

def ungroupedEach : List Expr → List String
  | [] => []
  | e :: rest => ungrouped e ++ ungroupedEach rest

def ungroupedKeys : List (SortKey Expr) → List String
  | [] => []
  | ⟨e, _⟩ :: rest => ungrouped e ++ ungroupedKeys rest

end

/-- An expression over groups of rows that agree on certain columns. -/
structure GroupedBy (Group : String → Prop) (e : Expr) : Prop where
  columns : ∀ name ∈ e.ungrouped, Group name
  unnested : e.Unnested

/-- An expression that has a value for every group, whatever the rows are grouped by. -/
structure IsAggregated (e : Expr) : Prop where
  ungrouped : e.ungrouped = []
  unnested : e.Unnested
  aggregate : e.hasAggregate = true

theorem IsAggregated.groupedBy {Group : String → Prop} {e : Expr} (is : e.IsAggregated) :
    e.GroupedBy Group where
  columns name member := by
    rw [is.ungrouped] at member
    cases member
  unnested := is.unnested

theorem hasAggregate_of_part {part e : Expr} (within : ∀ node ∈ part.nodes, node ∈ e.nodes)
    (has : part.hasAggregate = true) : e.hasAggregate = true := by
  obtain ⟨node, member, is⟩ := List.any_eq_true.mp has
  exact List.any_eq_true.mpr ⟨node, within node member, is⟩

theorem ungroupedEach_eq (es : List Expr) : ungroupedEach es = es.flatMap ungrouped := by
  induction es with
  | nil => rfl
  | cons e rest ih => rw [ungroupedEach, ih, List.flatMap_cons]

variable {Group : String → Prop} {e left right operand : Expr} {args values : List Expr}
  {name : String} {distinct negated : Bool}

theorem ungrouped_function (single : isAggregateName name = false) :
    (function name args distinct).ungrouped = args.flatMap ungrouped := by
  rw [ungrouped, single, ungroupedEach_eq]
  rfl

/-! ## Row by row -/

@[simp] theorem isRowWise_named : (named name).IsRowWise := List.forall_mem_singleton.mpr rfl

@[simp] theorem isRowWise_literal (value : Literal) : (literal value).IsRowWise :=
  List.forall_mem_singleton.mpr rfl

@[simp] theorem isRowWise_ofInt (n : Int) : (ofInt n).IsRowWise := isRowWise_literal _

@[simp] theorem isRowWise_ofString (text : String) : (ofString text).IsRowWise :=
  isRowWise_literal _

@[simp] theorem isRowWise_star (table : Option String) : (star table).IsRowWise :=
  List.forall_mem_singleton.mpr rfl

@[simp] theorem isRowWise_interval (count : Int) (unit : String) :
    (interval count unit).IsRowWise :=
  List.forall_mem_singleton.mpr rfl

@[simp] theorem isRowWise_typed (type text : String) : (typed type text).IsRowWise :=
  List.forall_mem_singleton.mpr rfl

@[simp] theorem isRowWise_binary {op : BinaryOp} :
    (binary op left right).IsRowWise ↔ left.IsRowWise ∧ right.IsRowWise :=
  forall_nodes_binary.trans (and_iff_right rfl)

@[simp] theorem isRowWise_unary {op : UnaryOp} :
    (unary op operand).IsRowWise ↔ operand.IsRowWise :=
  forall_nodes_unary.trans (and_iff_right rfl)

@[simp] theorem isRowWise_isNull : (isNull operand negated).IsRowWise ↔ operand.IsRowWise :=
  forall_nodes_isNull.trans (and_iff_right rfl)

@[simp] theorem isRowWise_inList : (inList operand values negated).IsRowWise ↔
    operand.IsRowWise ∧ ∀ value ∈ values, value.IsRowWise :=
  forall_nodes_inList.trans (and_iff_right rfl)

theorem isRowWise_function (single : isAggregateName name = false) :
    (function name args distinct).IsRowWise ↔ ∀ arg ∈ args, arg.IsRowWise :=
  forall_nodes_function.trans (and_iff_right single)

/-! ## Nesting -/

theorem IsRowWise.unnested (is : e.IsRowWise) : e.Unnested := by
  intro node member spans
  cases (is node member).symm.trans spans

@[simp] theorem unnested_binary {op : BinaryOp} :
    (binary op left right).Unnested ↔ left.Unnested ∧ right.Unnested :=
  forall_nodes_binary.trans (and_iff_right fun spans => nomatch spans)

@[simp] theorem unnested_unary {op : UnaryOp} :
    (unary op operand).Unnested ↔ operand.Unnested :=
  forall_nodes_unary.trans (and_iff_right fun spans => nomatch spans)

@[simp] theorem unnested_isNull : (isNull operand negated).Unnested ↔ operand.Unnested :=
  forall_nodes_isNull.trans (and_iff_right fun spans => nomatch spans)

@[simp] theorem unnested_inList : (inList operand values negated).Unnested ↔
    operand.Unnested ∧ ∀ value ∈ values, value.Unnested :=
  forall_nodes_inList.trans (and_iff_right fun spans => nomatch spans)

theorem unnested_function (single : isAggregateName name = false) :
    (function name args distinct).Unnested ↔ ∀ arg ∈ args, arg.Unnested :=
  forall_nodes_function.trans (and_iff_right fun spans => nomatch single.symm.trans spans)

theorem isAggregated_function (is : isAggregateName name = true)
    (each : ∀ arg ∈ args, arg.IsRowWise) : (function name args distinct).IsAggregated where
  ungrouped := by rw [Expr.ungrouped, if_pos is]
  unnested := by
    have inside : ∀ node ∈ nodesEach args, node.spansRows = false :=
      forall_nodesEach.mpr each
    intro node member spans
    rcases List.mem_cons.mp member with rfl | member
    · exact inside
    · cases (inside node member).symm.trans spans
  aggregate := List.any_eq_true.mpr ⟨_, List.mem_cons_self, is⟩

theorem window_unnested {partitionBy : List Expr} {orderBy : List (SortKey Expr)}
    (picked : e.IsRowWise) (parts : ∀ part ∈ partitionBy, part.IsRowWise)
    (keys : ∀ order ∈ orderBy, order.key.IsRowWise) :
    (window e partitionBy orderBy).Unnested ∧
      (window e partitionBy orderBy).hasAggregate = false := by
  have inside : ∀ node ∈ (window e partitionBy orderBy).nodes.tail, node.spansRows = false :=
    List.forall_mem_append.mpr ⟨List.forall_mem_append.mpr
      ⟨picked, forall_nodesEach.mpr parts⟩, forall_nodesKeys.mpr keys⟩
  have single : ∀ node : Expr, node.spansRows = false → node.isAggregate = false := by
    intro node is
    cases node <;> first | rfl | exact is
  refine ⟨fun node member spans => ?_, List.any_eq_false.mpr fun node member => ?_⟩
  · rcases List.mem_cons.mp member with rfl | member
    · exact inside
    · cases (inside node member).symm.trans spans
  · rcases List.mem_cons.mp member with rfl | member
    · exact Bool.false_ne_true
    · exact Bool.eq_false_iff.mp (single node (inside node member))

theorem IsRowWise.hasAggregate (is : e.IsRowWise) : e.hasAggregate = false := by
  refine List.any_eq_false.mpr fun node member aggregate => ?_
  have spans := is node member
  cases node <;> simp_all [spansRows, isAggregate]

end Expr

/-! ## The known dialects -/

/-- Dialects whose means to aggregate are aggregates, and whose other means are not. -/
structure Dialect.Aggregating (d : Dialect) : Prop where
  timestamp (t : Instant) : (d.timestamp t).IsRowWise
  timeFloor {time e : Expr} {seconds : Int} :
    d.timeFloor time seconds = some e → time.IsRowWise → e.IsRowWise
  pick {last : Bool} {value time e : Expr} :
    d.pick last value time = some e → value.IsRowWise → time.IsRowWise → e.IsAggregated
  join {value e : Expr} : d.join value = some e → value.IsRowWise → e.IsAggregated
  countDistinct {value : Expr} : value.IsRowWise → (d.countDistinct value).IsAggregated

section
variable {value time epoch : Expr} {name text : String}

theorem isRowWise_floorTo (is : epoch.IsRowWise) (seconds : Int) :
    (floorTo epoch seconds).IsRowWise := by
  have floor : isAggregateName "floor" = false := by decide
  simp [floorTo, Expr.apply, Expr.isRowWise_function floor, is]

theorem isAggregated_single {distinct : Bool} (is : isAggregateName name = true)
    (plain : value.IsRowWise) : (Expr.function name [value] distinct).IsAggregated :=
  Expr.isAggregated_function is (by simpa using plain)

theorem isAggregated_picked (is : isAggregateName name = true) (plain : value.IsRowWise)
    (plain' : time.IsRowWise) : (Expr.apply name [value, time]).IsAggregated :=
  Expr.isAggregated_function is (by simp [plain, plain'])

theorem isAggregated_joined (is : isAggregateName name = true) (plain : value.IsRowWise) :
    (Expr.apply name [value, .ofString text]).IsAggregated :=
  isAggregated_picked is plain (Expr.isRowWise_ofString text)

theorem isAggregated_perSecond (is : value.IsAggregated) (seconds : Int) :
    (perSecond value seconds).IsAggregated := by
  refine ⟨?_, Expr.unnested_binary.mpr ⟨is.unnested, (Expr.isRowWise_literal _).unnested⟩,
    Expr.hasAggregate_of_part ?_ is.aggregate⟩
  · rw [perSecond, Expr.ungrouped, is.ungrouped]
    rfl
  · exact fun node member => List.mem_cons_of_mem _ (List.mem_append_left _ member)

end

namespace Dialect

theorem aggregating_clickhouse : Dialect.Aggregating clickhouse where
  timestamp t := by
    have name : isAggregateName "fromUnixTimestamp" = false := by decide
    simp [clickhouse, Expr.apply, Expr.isRowWise_function name]
  timeFloor := by
    rintro time e seconds ⟨rfl⟩ plain
    have outer : isAggregateName "toUnixTimestamp" = false := by decide
    have inner : isAggregateName "toStartOfInterval" = false := by decide
    simp [Expr.apply, Expr.isRowWise_function outer, Expr.isRowWise_function inner, plain]
  pick := by
    rintro last value time e ⟨rfl⟩ plain plain'
    cases last
    · exact isAggregated_picked (by decide) plain plain'
    · exact isAggregated_picked (by decide) plain plain'
  join := by
    -- The values are collected by an aggregate, and then joined.
    rintro value e ⟨rfl⟩ plain
    have outer : isAggregateName "arrayStringConcat" = false := by decide
    have collected : (Expr.apply "groupArray" [value]).IsAggregated :=
      isAggregated_single (by decide) plain
    refine ⟨?_, (Expr.unnested_function outer).mpr ?_,
      Expr.hasAggregate_of_part ?_ collected.aggregate⟩
    · rw [Expr.apply, Expr.ungrouped_function outer, List.flatMap_cons, collected.ungrouped]
      rfl
    · simp only [List.forall_mem_cons, List.not_mem_nil, false_implies, implies_true, and_true]
      exact ⟨collected.unnested, (Expr.isRowWise_ofString ",").unnested⟩
    · exact fun node member => List.mem_cons_of_mem _ (List.mem_append_left _ member)
  countDistinct plain := isAggregated_single (by decide) plain

theorem aggregating_duckdb : Dialect.Aggregating duckdb where
  timestamp t := Expr.isRowWise_typed _ _
  timeFloor := by
    rintro time e seconds ⟨rfl⟩ plain
    have name : isAggregateName "epoch" = false := by decide
    exact isRowWise_floorTo ((Expr.isRowWise_function name).mpr (by simpa using plain)) seconds
  pick := by
    rintro last value time e ⟨rfl⟩ plain plain'
    cases last
    · exact isAggregated_picked (by decide) plain plain'
    · exact isAggregated_picked (by decide) plain plain'
  join := by
    rintro value e ⟨rfl⟩ plain
    exact isAggregated_joined (by decide) plain
  countDistinct plain := isAggregated_single (by decide) plain

theorem aggregating_h2 : Dialect.Aggregating h2 where
  timestamp t := Expr.isRowWise_typed _ _
  timeFloor := by
    rintro time e seconds ⟨rfl⟩ plain
    have name : isAggregateName "DATEDIFF" = false := by decide
    exact isRowWise_floorTo ((Expr.isRowWise_function name).mpr (by simpa using plain)) seconds
  pick never := nomatch never
  join := by
    rintro value e ⟨rfl⟩ plain
    exact isAggregated_joined (by decide) plain
  countDistinct plain := isAggregated_single (by decide) plain

theorem aggregating_mysql : Dialect.Aggregating mysql where
  timestamp t := Expr.isRowWise_ofString _
  timeFloor := by
    rintro time e seconds ⟨rfl⟩ plain
    have name : isAggregateName "unix_timestamp" = false := by decide
    exact isRowWise_floorTo ((Expr.isRowWise_function name).mpr (by simpa using plain)) seconds
  pick never := nomatch never
  join := by
    rintro value e ⟨rfl⟩ plain
    exact isAggregated_single (by decide) plain
  countDistinct plain := isAggregated_single (by decide) plain

theorem aggregating_postgres : Dialect.Aggregating postgres where
  timestamp t := Expr.isRowWise_typed _ _
  timeFloor := by
    rintro time e seconds ⟨rfl⟩ plain
    have name : isAggregateName "date_part" = false := by decide
    exact isRowWise_floorTo ((Expr.isRowWise_function name).mpr (by simpa using plain)) seconds
  pick never := nomatch never
  join := by
    rintro value e ⟨rfl⟩ plain
    exact isAggregated_joined (by decide) plain
  countDistinct plain := isAggregated_single (by decide) plain

end Dialect

theorem aggregating_dialect (database : Database) : database.dialect.Aggregating := by
  cases database with
  | clickhouse => exact Dialect.aggregating_clickhouse
  | duckdb => exact Dialect.aggregating_duckdb
  | h2 => exact Dialect.aggregating_h2
  | mysql => exact Dialect.aggregating_mysql
  | postgres => exact Dialect.aggregating_postgres

end Rollup.Sql
