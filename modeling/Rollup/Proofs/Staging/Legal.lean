import Rollup.Proofs.Plan
import Rollup.Proofs.Staging.Call

/-! The grouping of every stage is legal.

A stage that groups rows reads what it groups by, and anything else in aggregates only. The start of
a bucket is the exception: it is computed from the column of time, and grouped by under its name.
Conditions on rows are computed row by row, and no aggregate or window function stands inside
another one.
-/

set_option autoImplicit false

namespace Rollup

namespace Stage

/-- Whether the rows of a stage are groups of the rows that it reads. -/
def aggregates (stage : Stage) : Bool :=
  stage.isGrouped || stage.having.isSome || stage.fields.any (·.expr.hasAggregate)

def exprs (stage : Stage) : List Sql.Expr :=
  stage.fields.map (·.expr) ++ stage.filter.toList ++ stage.groupBy ++ stage.having.toList ++
    stage.orderBy.map (·.key)

/-- What is read outside of aggregates is grouped by, or it is the start of a bucket. -/
structure Grouped (IsStart : Sql.Expr → Prop) (stage : Stage) : Prop where
  fields : ∀ field ∈ stage.fields,
    (∀ name ∈ field.expr.ungrouped, .named name ∈ stage.groupBy) ∨
      field.name = bucketName ∧ IsStart field.expr ∧ .named bucketName ∈ stage.groupBy
  having : ∀ e, stage.having = some e → ∀ name ∈ e.ungrouped, .named name ∈ stage.groupBy

structure Legal (IsStart : Sql.Expr → Prop) (stage : Stage) : Prop where
  grouped : stage.aggregates = true → stage.Grouped IsStart
  filter : ∀ e, stage.filter = some e → e.IsRowWise
  unnested : ∀ e ∈ stage.exprs, e.Unnested

variable {IsStart : Sql.Expr → Prop} {stage : Stage}

theorem Legal.imp {IsStart' : Sql.Expr → Prop} (legal : stage.Legal IsStart)
    (each : ∀ e, IsStart e → IsStart' e) : stage.Legal IsStart' where
  grouped aggregates :=
    ⟨fun field member => ((legal.grouped aggregates).fields field member).imp_right
      fun ⟨named, start, grouped⟩ => ⟨named, each _ start, grouped⟩,
      (legal.grouped aggregates).having⟩
  filter := legal.filter
  unnested := legal.unnested

theorem Legal.finish (legal : stage.Legal IsStart) {orderBy : List (Sql.SortKey Sql.Expr)}
    {rows : Option Sql.RowWindow} (sorted : ∀ order ∈ orderBy, order.key.IsRowWise) :
    Legal IsStart { stage with orderBy, rows } where
  grouped aggregates := ⟨(legal.grouped aggregates).fields, (legal.grouped aggregates).having⟩
  filter := legal.filter
  unnested e member := by
    rcases List.mem_append.mp member with member | member
    · exact legal.unnested e (List.mem_append_left _ member)
    · obtain ⟨order, listed, rfl⟩ := List.mem_map.mp member
      exact (sorted order listed).unnested

theorem mem_exprs (unsorted : stage.orderBy = []) {e : Sql.Expr} :
    e ∈ stage.exprs ↔ (∃ field ∈ stage.fields, field.expr = e) ∨ stage.filter = some e ∨
      e ∈ stage.groupBy ∨ stage.having = some e := by
  simp [exprs, unsorted]

/-- A stage whose rows are those that it reads. -/
theorem legal_of_single (unsorted : stage.orderBy = []) (ungrouped : stage.groupBy = [])
    (unfiltered : stage.having = none)
    (fields : ∀ field ∈ stage.fields, field.expr.Unnested ∧ field.expr.hasAggregate = false)
    (filter : ∀ e, stage.filter = some e → e.IsRowWise) : stage.Legal IsStart where
  grouped aggregates := by
    have single : stage.fields.any (·.expr.hasAggregate) = false :=
      List.any_eq_false.mpr fun field member => by simp [(fields field member).2]
    simp [Stage.aggregates, isGrouped, ungrouped, unfiltered, single] at aggregates
  filter := filter
  unnested e member := by
    rw [mem_exprs unsorted, ungrouped, unfiltered] at member
    rcases member with ⟨field, listed, rfl⟩ | filtered | member | filtered
    · exact (fields field listed).1
    · exact (filter e filtered).unnested
    · cases member
    · cases filtered

end Stage

namespace Renderer
variable {r : Renderer} {Group : String → Prop}

/-! ## Expressions -/

theorem combine_eq (op : BinaryOp) (left right : Sql.Expr) :
    (∃ op', combine op left right = .binary op' left right) ∨
      (∃ negated, combine op left right = .isNull left negated) ∨
      ∃ negated, combine op left right = .isNull right negated := by
  have test : ∀ (op : Sql.BinaryOp) (negated : Bool),
      equality op negated left right = .binary op left right ∨
        equality op negated left right = .isNull left negated ∨
        equality op negated left right = .isNull right negated := by
    intro op negated
    unfold equality
    split
    · exact .inr (.inl rfl)
    · split
      · exact .inr (.inr rfl)
      · exact .inl rfl
  have either : ∀ (op : Sql.BinaryOp) (negated : Bool),
      (∃ op', equality op negated left right = .binary op' left right) ∨
        (∃ negated', equality op negated left right = .isNull left negated') ∨
        ∃ negated', equality op negated left right = .isNull right negated' :=
    fun op negated => (test op negated).imp (⟨_, ·⟩) (Or.imp (⟨_, ·⟩) (⟨_, ·⟩))
  cases op with
  | eq => exact either .eq false
  | ne => exact either .ne true
  | _ => exact .inl ⟨_, rfl⟩

-- Being computed row by row, or from groups, is a property: the second argument is not looked at.
theorem congruent_isRowWise :
    CongruentFor (Sql.isAggregateName · = false) fun written _ => written.IsRowWise where
  literal value := by cases value <;> exact Sql.Expr.isRowWise_literal _
  combine {left _ right _} op l r := by
    rcases combine_eq op left right with ⟨op', same⟩ | ⟨negated, same⟩ | ⟨negated, same⟩ <;>
      rw [same]
    · exact Sql.Expr.isRowWise_binary.mpr ⟨l, r⟩
    · exact Sql.Expr.isRowWise_isNull.mpr l
    · exact Sql.Expr.isRowWise_isNull.mpr r
  unary op operand := Sql.Expr.isRowWise_unary.mpr operand
  inList negated operand items := by
    refine Sql.Expr.isRowWise_inList.mpr ⟨operand, fun item listed => ?_⟩
    obtain ⟨_, -, each⟩ := related_of_mem_left items listed
    exact each
  apply name single args := by
    refine (Sql.Expr.isRowWise_function single).mpr fun arg listed => ?_
    obtain ⟨_, -, each⟩ := related_of_mem_left args listed
    exact each

theorem groupedBy_binary {op : Sql.BinaryOp} {left right : Sql.Expr} (l : left.GroupedBy Group)
    (r : right.GroupedBy Group) : (Sql.Expr.binary op left right).GroupedBy Group where
  columns name member := (List.mem_append.mp member).elim (l.columns name) (r.columns name)
  unnested := Sql.Expr.unnested_binary.mpr ⟨l.unnested, r.unnested⟩

theorem congruent_groupedBy (Group : String → Prop) :
    CongruentFor (Sql.isAggregateName · = false) fun written _ => written.GroupedBy Group where
  literal value := by
    have plain : value.toSql.Unnested := by
      cases value <;> exact (Sql.Expr.isRowWise_literal _).unnested
    refine ⟨?_, plain⟩
    cases value <;> simp [Literal.toSql, Sql.Expr.ungrouped]
  combine {left _ right _} op l r := by
    rcases combine_eq op left right with ⟨op', same⟩ | ⟨negated, same⟩ | ⟨negated, same⟩ <;>
      rw [same]
    · exact groupedBy_binary l r
    · exact ⟨l.columns, Sql.Expr.unnested_isNull.mpr l.unnested⟩
    · exact ⟨r.columns, Sql.Expr.unnested_isNull.mpr r.unnested⟩
  unary op operand := ⟨operand.columns, Sql.Expr.unnested_unary.mpr operand.unnested⟩
  inList negated operand items := by
    have each : ∀ item ∈ _, Sql.Expr.GroupedBy Group item := fun item listed =>
      (related_of_mem_left items listed).choose_spec.2
    refine ⟨fun name member => ?_,
      Sql.Expr.unnested_inList.mpr
        ⟨operand.unnested, fun item listed => (each item listed).unnested⟩⟩
    rw [Sql.Expr.ungrouped, Sql.Expr.ungroupedEach_eq, List.mem_append, List.mem_flatMap] at member
    rcases member with member | ⟨item, listed, member⟩
    · exact operand.columns name member
    · exact (each item listed).columns name member
  apply name single args := by
    have each : ∀ arg ∈ _, Sql.Expr.GroupedBy Group arg := fun arg listed =>
      (related_of_mem_left args listed).choose_spec.2
    refine ⟨fun column member => ?_,
      (Sql.Expr.unnested_function single).mpr fun arg listed => (each arg listed).unnested⟩
    rw [Sql.Expr.apply, Sql.Expr.ungrouped_function single, List.mem_flatMap] at member
    obtain ⟨arg, listed, member⟩ := member
    exact (each arg listed).columns column member

theorem groupedBy_named {name : String} (grouped : Group name) :
    (Sql.Expr.named name).GroupedBy Group where
  columns _ member := List.mem_singleton.mp member ▸ grouped
  unnested := Sql.Expr.isRowWise_named.unnested

theorem isRowWise_rowExpr {e : Expr} {written : Sql.Expr} (ok : rowExpr e = .ok written)
    (calls : ∀ name ∈ e.calls, Sql.isAggregateName name = false) : written.IsRowWise :=
  rowExpr_related congruent_isRowWise ok calls fun _ _ => Sql.Expr.isRowWise_named

/-! ## Aggregates -/

theorem isAggregated_aggregateOf (aggregating : r.dialect.Aggregating) {call : AggregateCall}
    {value e : Sql.Expr} (plain : value.IsRowWise) (ok : r.aggregateOf call value = .ok e) :
    e.IsAggregated := by
  have time : (Sql.Expr.named r.timeColumn).IsRowWise := Sql.Expr.isRowWise_named
  have sum : (Sql.Expr.apply "sum" [value]).IsAggregated :=
    Sql.isAggregated_single (by decide) plain
  cases func : call.func <;> simp only [aggregateOf, func] at ok
  case sum =>
    cases ok
    exact sum
  case count | avg | min | max =>
    cases ok
    exact Sql.isAggregated_single (by decide) plain
  case cardinality =>
    cases ok
    exact aggregating.countDistinct plain
  case groupConcat => exact aggregating.join (capability_eq_ok.mp ok) plain
  case rate =>
    split at ok
    · cases ok
      exact Sql.isAggregated_perSecond sum _
    · cases ok
  case first | last => exact aggregating.pick (capability_eq_ok.mp ok) plain time

theorem isAggregated_aggregate (aggregating : r.dialect.Aggregating) {call : AggregateCall}
    {e : Sql.Expr} (calls : ∀ arg, call.arg = some arg →
      ∀ name ∈ arg.calls, Sql.isAggregateName name = false)
    (ok : r.aggregate call = .ok e) : e.IsAggregated := by
  unfold aggregate at ok
  split at ok
  · rename_i arg given
    obtain ⟨value, written, ok⟩ := bind_eq_ok.mp ok
    exact isAggregated_aggregateOf aggregating (isRowWise_rowExpr written (calls arg given)) ok
  · -- Without an argument all rows are counted.
    split at ok
    · cases ok
      exact Sql.isAggregated_single (by decide) (Sql.Expr.isRowWise_star none)
    · cases ok

theorem unnested_windowCall {call : AggregateCall} {partitionBy : List Sql.Expr} {e : Sql.Expr}
    (calls : ∀ arg, call.arg = some arg → ∀ name ∈ arg.calls, Sql.isAggregateName name = false)
    (parts : ∀ part ∈ partitionBy, part.IsRowWise) (ok : r.windowCall call partitionBy = .ok e) :
    e.Unnested ∧ e.hasAggregate = false := by
  unfold windowCall at ok
  split at ok
  · rename_i arg given
    obtain ⟨value, written, rfl⟩ := bind_pure_eq_ok.mp ok
    have name : Sql.isAggregateName "first_value" = false := by decide
    have plain := isRowWise_rowExpr written (calls arg given)
    exact Sql.Expr.window_unnested ((Sql.Expr.isRowWise_function name).mpr (by simpa using plain))
      parts (by simp)
  · cases ok

end Renderer

namespace StageBuilder
variable {b : StageBuilder} {scope : Scope} {stage : Stage} {groupBy : List Sql.Expr}
  {P : Sql.Expr → Prop}

/-! ## References -/

/-- What is kept when expressions are put together holds of an expression if it holds of what its
references are written as. -/
theorem of_render
    (congruent : Renderer.CongruentFor (Sql.isAggregateName · = false) fun written _ => P written)
    {e : GroupExpr} {x : Sql.Expr} (calls : ∀ name ∈ e.calls, Sql.isAggregateName name = false)
    (each : ∀ target ∈ e.references, ∀ y, b.renderer.reference scope target = .ok y → P y)
    (ok : b.renderer.render scope e = .ok x) : P x := by
  obtain ⟨_, -, holds⟩ := Renderer.groupExpr_related congruent calls
    (fun target member y ok => ⟨y, ok, each target member y ok⟩) ok
  exact holds

theorem inner_of_lifted
    (congruent : Renderer.CongruentFor (Sql.isAggregateName · = false) fun written _ => P written)
    (refers : b.Refers) (calls : b.Calls (Sql.isAggregateName · = false)) (early : scope ≠ .groups)
    (lifted : ∀ target : Reference, target.isLifted = true → ∀ x,
      b.renderer.plainReference scope target = .ok x → P x) :
    ∀ target : Reference, target.isInner = true → ∀ x,
      b.renderer.innerReference scope target = .ok x → P x := by
  intro target is x ok
  cases target with
  | key index => exact lifted (.key index) rfl x ok
  | aggregate index => exact lifted (.aggregate index) rfl x ok
  | shared index =>
    obtain ⟨part, found, ok⟩ := (Renderer.shared_of_expr early).mp ok
    have listed := List.mem_of_getElem? found
    obtain ⟨_, -, holds⟩ := Renderer.groupExpr_related congruent (calls.shared part listed)
      (fun target member y ok =>
        ⟨y, ok, lifted target (refers.shared part listed target member) y ok⟩) ok
    exact holds
  | _ => cases is

/-- All that can be written in a scope may stand beside a grouping. -/
structure Groupable (b : StageBuilder) (scope : Scope) (groupBy : List Sql.Expr) : Prop where
  inner : ∀ target : Reference, target.isInner = true → ∀ x,
    b.renderer.innerReference scope target = .ok x → x.GroupedBy (.named · ∈ groupBy)
  bucket : ∀ bucket, b.BucketAt scope bucket → ∀ e, bucket = some e →
    e.GroupedBy (.named · ∈ groupBy) ∨
      b.bucketStart? = .ok (some e) ∧ e.IsRowWise ∧ .named bucketName ∈ groupBy

theorem isRowWise_bucketStart? (aggregating : b.renderer.dialect.Aggregating) {e : Sql.Expr}
    (start : b.bucketStart? = .ok (some e)) : e.IsRowWise := by
  rcases bucketStart?_eq_ok start with ⟨-, absent⟩ | ⟨-, time, step, floor, -, -, floored, same⟩
  · cases absent
  · cases same
    exact aggregating.timeFloor floored Sql.Expr.isRowWise_named

theorem groupable_table (aggregating : b.renderer.dialect.Aggregating) (refers : b.Refers)
    (calls : b.Calls (Sql.isAggregateName · = false))
    (grouped : ∀ slot ∈ b.renderer.slots, slot.windowed = false) :
    b.Groupable .table b.tableGrouping where
  inner := by
    refine inner_of_lifted (Renderer.congruent_groupedBy _) refers calls (by simp)
      fun target is x ok => ?_
    cases target with
    | key index =>
      obtain ⟨key, found, rfl⟩ := Renderer.key_eq_ok.mp ok
      exact Renderer.groupedBy_named (List.mem_append_left _
        (List.mem_map_of_mem (f := fun key => Sql.Expr.named key.column)
          (List.mem_of_getElem? found)))
    | aggregate index =>
      obtain ⟨slot, found, ok⟩ := Renderer.aggregate_eq_ok.mp ok
      have listed := List.mem_of_getElem? found
      rw [Renderer.slotExpr_of_call (by simp) (grouped slot listed)] at ok
      exact (Renderer.isAggregated_aggregate aggregating (calls.slots slot listed) ok).groupedBy
    | _ => cases is
  bucket := by
    rintro bucket start e rfl
    refine .inr ⟨start, isRowWise_bucketStart? aggregating start, List.mem_append_right _ ?_⟩
    exact mem_bucketColumn.mpr ⟨(isSome_bucket start).symm, rfl⟩

theorem groupable_window (aggregating : b.renderer.dialect.Aggregating) (refers : b.Refers)
    (calls : b.Calls (Sql.isAggregateName · = false)) (groups : b.GroupsWindow stage) :
    b.Groupable .window stage.groupBy where
  inner := by
    rw [groups.groupBy]
    refine inner_of_lifted (Renderer.congruent_groupedBy _) refers calls (by simp)
      fun target is x ok => ?_
    cases target with
    | key index =>
      obtain ⟨key, found, rfl⟩ := Renderer.key_eq_ok.mp ok
      exact Renderer.groupedBy_named (List.mem_append_left _ (List.mem_append_left _
        (List.mem_map_of_mem (f := fun key => Sql.Expr.named key.name)
          (List.mem_of_getElem? found))))
    | aggregate index =>
      obtain ⟨slot, found, ok⟩ := Renderer.aggregate_eq_ok.mp ok
      have listed := List.mem_of_getElem? found
      cases windowed : slot.windowed with
      | true =>
        -- The grouping names the window results, which are the same in all rows of a group.
        obtain ⟨given, named, rfl⟩ := (Renderer.slotExpr_of_name (.inr windowed)).mp ok
        refine Renderer.groupedBy_named (List.mem_append_left _ (List.mem_append_right _
          (List.mem_map_of_mem (mem_fieldNames.mpr ⟨slot, ?_, named⟩))))
        exact mem_windowSlots.mpr ⟨listed, windowed⟩
      | false =>
        rw [Renderer.slotExpr_of_call (by simp) windowed] at ok
        exact (Renderer.isAggregated_aggregate aggregating (calls.slots slot listed) ok).groupedBy
    | _ => cases is
  bucket := by
    rintro bucket rfl e there
    obtain ⟨bucketed, rfl⟩ := passedBucket_eq_some.mp there
    rw [groups.groupBy]
    exact .inl (Renderer.groupedBy_named (List.mem_append_right _
      (mem_bucketColumn.mpr ⟨bucketed, rfl⟩)))

theorem named_groups {target : Reference} (is : target.isInner = true) {x : Sql.Expr}
    (ok : b.renderer.innerReference .groups target = .ok x) : x.IsRowWise := by
  cases target with
  | key index =>
    obtain ⟨key, -, rfl⟩ := Renderer.key_eq_ok.mp ok
    exact Sql.Expr.isRowWise_named
  | aggregate index =>
    obtain ⟨slot, -, ok⟩ := Renderer.aggregate_eq_ok.mp ok
    obtain ⟨given, -, rfl⟩ := (Renderer.slotExpr_of_name (.inl rfl)).mp ok
    exact Sql.Expr.isRowWise_named
  | shared index =>
    obtain ⟨part, -, given, -, rfl⟩ := Renderer.shared_of_name.mp ok
    exact Sql.Expr.isRowWise_named
  | _ => cases is

/-! ## Stages of groups -/

/-- A field that may stand beside a grouping. -/
def IsGroupField (b : StageBuilder) (groupBy : List Sql.Expr) (field : Field) : Prop :=
  field.expr.GroupedBy (.named · ∈ groupBy) ∨
    field.name = bucketName ∧ b.bucketStart? = .ok (some field.expr) ∧ field.expr.IsRowWise ∧
      .named bucketName ∈ groupBy

namespace Groupable
variable (groupable : b.Groupable scope groupBy)
include groupable

theorem expr {e : GroupExpr} {x : Sql.Expr}
    (inner : ∀ target ∈ e.references, target.isInner = true)
    (calls : ∀ name ∈ e.calls, Sql.isAggregateName name = false)
    (ok : b.renderer.render scope e = .ok x) : x.GroupedBy (.named · ∈ groupBy) := by
  refine of_render (Renderer.congruent_groupedBy _) calls (fun target member y ok => ?_) ok
  rw [Renderer.reference_of_isInner (inner target member)] at ok
  exact groupable.inner target (inner target member) y ok

variable (refers : b.Refers) (calls : b.Calls (Sql.isAggregateName · = false))
include refers calls

theorem field {field : Field} (is : b.IsField scope field) : b.IsGroupField groupBy field := by
  cases is with
  | bucket start named =>
    exact (groupable.bucket _ start field.expr rfl).imp_right fun rest => ⟨named, rest⟩
  | reference lifted ok =>
    exact .inl (groupable.inner _ (Reference.isInner_of_isLifted lifted) _
      ((Renderer.innerReference_of_isLifted lifted).trans ok))
  | output among ok =>
    exact .inl (groupable.expr (refers.outputs _ among) (calls.outputs _ among) ok)
  | shared among ok =>
    exact .inl (groupable.expr (fun target member =>
      Reference.isInner_of_isLifted (refers.shared _ among target member))
      (calls.shared _ among) ok)

theorem having {filter : Option Sql.Expr} (ok : b.groupFilter scope = .ok filter) :
    ∀ e, filter = some e → e.GroupedBy (.named · ∈ groupBy) := by
  obtain ⟨written, each, rfl⟩ := groupFilter_eq_ok.mp ok
  refine fun e joined => Sql.Expr.forall_conjunction?
    (fun left right l r => Renderer.groupedBy_binary l r)
    (fun x listed => ?_) joined
  obtain ⟨condition, among, ok⟩ := related_of_mem_right each listed
  obtain ⟨among, level⟩ := List.mem_filter.mp among
  exact groupable.expr (fun target member => Reference.isInner_of_isLifted
    (refers.group condition among (beq_iff_eq.mp level) target member))
    (calls.conditions condition among) ok

end Groupable

theorem legal_of_groups (fields : ∀ field ∈ stage.fields, b.IsGroupField stage.groupBy field)
    (having : ∀ e, stage.having = some e → e.GroupedBy (.named · ∈ stage.groupBy))
    (filter : ∀ e, stage.filter = some e → e.IsRowWise)
    (columns : ∀ e ∈ stage.groupBy, e.IsRowWise) (unsorted : stage.orderBy = []) :
    stage.Legal (fun e => b.bucketStart? = .ok (some e)) where
  grouped _ := ⟨fun field member => (fields field member).imp Sql.Expr.GroupedBy.columns
    fun ⟨named, start, _, grouped⟩ => ⟨named, start, grouped⟩,
    fun e tested => (having e tested).columns⟩
  filter := filter
  unnested e member := by
    rcases (Stage.mem_exprs unsorted).mp member with
      ⟨field, listed, rfl⟩ | filtered | member | tested
    · exact (fields field listed).elim Sql.Expr.GroupedBy.unnested fun rest => rest.2.2.1.unnested
    · exact (filter e filtered).unnested
    · exact (columns e member).unnested
    · exact (having e tested).unnested

theorem isRowWise_bucketColumn : ∀ e ∈ b.bucketColumn, e.IsRowWise := by
  intro e member
  obtain ⟨-, rfl⟩ := mem_bucketColumn.mp member
  exact Sql.Expr.isRowWise_named

theorem isRowWise_rowFilter (aggregating : b.renderer.dialect.Aggregating) (refers : b.Refers)
    (calls : b.Calls (Sql.isAggregateName · = false)) {filter : Option Sql.Expr}
    (ok : b.rowFilter = .ok filter) : ∀ e, filter = some e → e.IsRowWise := by
  obtain ⟨written, each, rfl⟩ := rowFilter_eq_ok.mp ok
  refine fun e joined => Sql.Expr.forall_conjunction?
    (fun left right l r => Sql.Expr.isRowWise_binary.mpr ⟨l, r⟩) (fun x listed => ?_) joined
  rcases List.mem_append.mp listed with listed | listed
  · -- Both bounds compare the column of time with a constant.
    unfold timeConditions at listed
    split at listed
    · cases listed
    · rename_i time found
      have bound : ∀ (op : Sql.BinaryOp) (t : Instant), Sql.Expr.IsRowWise
          (.binary op (.named time.column) (b.renderer.dialect.timestamp t)) := fun op t =>
        Sql.Expr.isRowWise_binary.mpr ⟨Sql.Expr.isRowWise_named, aggregating.timestamp t⟩
      simp only [List.mem_cons, List.not_mem_nil, or_false] at listed
      rcases listed with rfl | rfl
      · exact bound .gte time.start
      · exact bound .lt time.stop
  · obtain ⟨condition, among, ok⟩ := related_of_mem_right each listed
    obtain ⟨among, level⟩ := List.mem_filter.mp among
    refine of_render Renderer.congruent_isRowWise (calls.conditions condition among)
      (fun target member y ok => ?_) ok
    rcases refers.row condition among (beq_iff_eq.mp level) target member with
      ⟨name, rfl⟩ | ⟨index, rfl⟩
    · cases ok
      exact Sql.Expr.isRowWise_named
    · obtain ⟨key, -, rfl⟩ := Renderer.key_eq_ok.mp ok
      exact Sql.Expr.isRowWise_named

section
variable (aggregating : b.renderer.dialect.Aggregating) (refers : b.Refers)
  (calls : b.Calls (Sql.isAggregateName · = false))
include aggregating refers calls

theorem GroupsTable.legal (groups : b.GroupsTable stage)
    (grouped : ∀ slot ∈ b.renderer.slots, slot.windowed = false)
    (fields : ∀ field ∈ stage.fields, b.IsField .table field) :
    stage.Legal (fun e => b.bucketStart? = .ok (some e)) := by
  have groupable := groupable_table aggregating refers calls grouped
  refine legal_of_groups
    (groups.groupBy ▸ fun field listed => groupable.field refers calls (fields field listed))
    (groups.groupBy ▸ groupable.having refers calls groups.having)
    (isRowWise_rowFilter aggregating refers calls groups.filter) ?_ groups.whole.1
  intro e member
  rw [groups.groupBy] at member
  rcases List.mem_append.mp member with member | member
  · obtain ⟨key, -, rfl⟩ := List.mem_map.mp member
    exact Sql.Expr.isRowWise_named
  · exact isRowWise_bucketColumn e member

theorem GroupsWindow.legal (groups : b.GroupsWindow stage)
    (fields : ∀ field ∈ stage.fields, b.IsField .window field) :
    stage.Legal (fun e => b.bucketStart? = .ok (some e)) := by
  have groupable := groupable_window aggregating refers calls groups
  refine legal_of_groups
    (fun field listed => groupable.field refers calls (fields field listed))
    (groupable.having refers calls groups.having)
    (fun e filtered => ?_) (fun e member => ?_) groups.whole.1
  · rw [groups.filter] at filtered
    cases filtered
  · rw [groups.groupBy] at member
    rcases List.mem_append.mp member with member | member
    · rcases List.mem_append.mp member with member | member
      · obtain ⟨key, -, rfl⟩ := List.mem_map.mp member
        exact Sql.Expr.isRowWise_named
      · obtain ⟨name, -, rfl⟩ := List.mem_map.mp member
        exact Sql.Expr.isRowWise_named
    · exact isRowWise_bucketColumn e member

/-! ## Stages of single rows -/

theorem Windows.legal (windows : b.Windows stage) :
    stage.Legal (fun e => b.bucketStart? = .ok (some e)) := by
  obtain ⟨bucket, results, start, each, fields⟩ := windows.fields
  have floored : ∀ e ∈ bucket, e.IsRowWise := by
    rintro e rfl
    exact isRowWise_bucketStart? aggregating start
  have single : ∀ {e : Sql.Expr}, e.IsRowWise → e.Unnested ∧ e.hasAggregate = false :=
    fun is => ⟨is.unnested, is.hasAggregate⟩
  refine Stage.legal_of_single windows.whole.1 windows.groupBy windows.having
    (fun field listed => ?_) (isRowWise_rowFilter aggregating refers calls windows.filter)
  rw [fields] at listed
  simp only [List.mem_append] at listed
  rcases listed with ((listed | listed) | listed) | listed
  · cases bucket with
    | none => cases listed
    | some e =>
      obtain rfl := List.mem_singleton.mp listed
      exact single (floored e rfl)
  · obtain ⟨key, -, rfl⟩ := List.mem_map.mp listed
    exact single Sql.Expr.isRowWise_named
  · obtain ⟨column, -, rfl⟩ := List.mem_map.mp listed
    exact single Sql.Expr.isRowWise_named
  · obtain ⟨slot, among, -, written⟩ := related_of_mem_right each listed
    refine Renderer.unnested_windowCall (calls.slots slot (mem_windowSlots.mp among).1)
      (fun part listed => ?_) written
    rcases List.mem_append.mp listed with listed | listed
    · obtain ⟨key, -, rfl⟩ := List.mem_map.mp listed
      exact Sql.Expr.isRowWise_named
    · exact floored part (Option.mem_toList.mp listed)

omit aggregating in
theorem Computes.legal (computes : b.Computes stage) :
    stage.Legal (fun e => b.bucketStart? = .ok (some e)) := by
  have output : ∀ {e : GroupExpr} {x : Sql.Expr},
      (∀ target ∈ e.references, target.isInner = true) →
      (∀ name ∈ e.calls, Sql.isAggregateName name = false) →
      Renderer.groupExpr (b.renderer.innerReference .groups) e = .ok x → x.IsRowWise := by
    intro e x inner called ok
    obtain ⟨_, -, plain⟩ := Renderer.groupExpr_related Renderer.congruent_isRowWise called
      (fun target member y ok => ⟨y, ok, named_groups (inner target member) ok⟩) ok
    exact plain
  have fields : ∀ field ∈ stage.fields, field.expr.IsRowWise := by
    intro field listed
    cases computes.isField field listed with
    | bucket start =>
      exact (passedBucket_eq_some.mp start.symm).2 ▸ Sql.Expr.isRowWise_named
    | reference lifted ok =>
      exact named_groups (Reference.isInner_of_isLifted lifted)
        ((Renderer.innerReference_of_isLifted lifted).trans ok)
    | output among ok =>
      exact output (refers.outputs _ among) (calls.outputs _ among)
        (Renderer.render_of_isInner (refers.outputs _ among) ok)
    | shared among ok =>
      have inner := fun target member =>
        Reference.isInner_of_isLifted (refers.shared _ among target member)
      exact output inner (calls.shared _ among) (Renderer.render_of_isInner inner ok)
  refine Stage.legal_of_single computes.whole.1 computes.groupBy computes.having
    (fun field listed => ⟨(fields field listed).unnested, (fields field listed).hasAggregate⟩) ?_
  obtain ⟨written, each, same⟩ := outputFilter_eq_ok.mp computes.filter
  rw [same]
  refine fun e joined => Sql.Expr.forall_conjunction?
    (fun left right l r => Sql.Expr.isRowWise_binary.mpr ⟨l, r⟩) (fun x listed => ?_) joined
  obtain ⟨condition, among, ok⟩ := related_of_mem_right each listed
  obtain ⟨among, level⟩ := List.mem_filter.mp among
  refine of_render Renderer.congruent_isRowWise (calls.conditions condition among)
    (fun target member y ok => ?_) ok
  rcases refers.output condition among (beq_iff_eq.mp level) target member with
    lifted | ⟨index, result, rfl, found, -⟩
  · have inner := Reference.isInner_of_isLifted lifted
    rw [Renderer.reference_of_isInner inner] at ok
    exact named_groups inner ok
  · -- An output is read by its name, or computed once more from names.
    obtain ⟨result', found', written⟩ := Renderer.output_eq_ok.mp ok
    cases found.symm.trans found'
    have listed := List.mem_of_getElem? found
    split at written
    · exact written ▸ Sql.Expr.isRowWise_named
    · exact output (refers.outputs result listed) (calls.outputs result listed) written

theorem legal_of_built {layout : Layout} {stages : List Stage} {schema : Schema}
    (sound : b.Sound layout schema) (built : b.Built layout stages) :
    ∀ stage ∈ stages, stage.Legal (fun e => b.bucketStart? = .ok (some e)) := by
  intro stage member
  cases built.isStage member with
  | flat unwindowed groups selects =>
    exact groups.legal aggregating refers calls (sound.grouped unwindowed) selects.isField
  | groups unwindowed groups passes =>
    exact groups.legal aggregating refers calls (sound.grouped unwindowed)
      (passes.isField (by simp))
  | windows windows => exact windows.legal aggregating refers calls
  | regroups _ _ _ groups selects => exact groups.legal aggregating refers calls selects.isField
  | passes _ _ _ groups passes =>
    exact groups.legal aggregating refers calls (passes.isField (by simp))
  | last computes => exact computes.legal refers calls

end

end StageBuilder

namespace Compiler

/-- The start of a bucket of a query, computed from the column of time. -/
def IsBucketStart (c : Compiler) (query : Query) (e : Sql.Expr) : Prop :=
  isBucketed query = true ∧ ∃ seconds, bucketSeconds query = .ok (some seconds) ∧
    c.dialect.timeFloor (.named (c.timeColumn query)) seconds = some e

variable {c : Compiler} {query : Query}

theorem isBucketStart_builder {seconds : Option Int} {a : Analysis} {carried : List String}
    (bucket : bucketSeconds query = .ok seconds) {e : Sql.Expr}
    (start : (c.builder query seconds a carried).bucketStart? = .ok (some e)) :
    c.IsBucketStart query e := by
  rcases StageBuilder.bucketStart?_eq_ok start with
    ⟨-, absent⟩ | ⟨bucketed, time, step, floor, found, stepped, floored, same⟩
  · cases absent
  · cases same
    refine ⟨(isBucketed_builder bucket).symm.trans bucketed, step, ?_, ?_⟩
    · obtain ⟨interval, -, rfl⟩ := Option.map_eq_some_iff.mp found
      have known : seconds = some step := by
        dsimp only at stepped
        split at stepped
        · exact stepped
        · cases stepped
      exact known ▸ bucket
    · obtain ⟨interval, -, rfl⟩ := Option.map_eq_some_iff.mp found
      exact floored

theorem isRowWise_sortKey {names : List String} {order : OrderBy} {key : Sql.SortKey Sql.Expr}
    (ok : sortKey names order = .ok key) : key.key.IsRowWise := by
  unfold sortKey at ok
  split at ok
  · cases ok
    exact Sql.Expr.isRowWise_named
  · cases ok

/-- Every stage of an accepted query is legal. -/
theorem legal_plan {database : Sql.Database} {plan : Plan} (dialect : c.dialect = database.dialect)
    (registry : c.registry = .builtin) (ok : c.plan query = .ok plan) :
    ∀ stage ∈ plan.stages, stage.Legal (c.IsBucketStart query) := by
  obtain ⟨seconds, a, carried, stages, orderBy, accepts⟩ := accepts_of_plan ok
  let b := c.builder query seconds a carried
  have aggregating : b.renderer.dialect.Aggregating := by
    show c.dialect.Aggregating
    exact dialect ▸ Sql.aggregating_dialect database
  have calls : b.Calls (Sql.isAggregateName · = false) := by
    have scalar := accepts.calls_builder fun func => registry ▸ isAggregate_builtin func
    exact scalar.imp fun name is => not_isAggregateName_of_isScalar (registry ▸ is)
  have sound : b.Sound (c.layoutOf a) c.schema := accepts.sound_builder
  have sorted : ∀ order ∈ orderBy, order.key.IsRowWise := by
    intro order member
    obtain ⟨origin, -, ok⟩ := related_of_mem_right (mapM_eq_ok.mp accepts.sorted) member
    exact isRowWise_sortKey ok
  obtain ⟨-, -, built⟩ := StageBuilder.built_build accepts.built
  have legal := StageBuilder.legal_of_built aggregating sound.refers calls sound built
  intro stage member
  rw [accepts.plan] at member
  obtain ⟨origin, listed, rfl | rfl⟩ := mem_finish member
  · exact (legal stage listed).imp fun e => isBucketStart_builder accepts.bucket
  · exact ((legal origin listed).imp fun e => isBucketStart_builder accepts.bucket).finish sorted

theorem legal_risingLoad : ∃ plan, hosts.plan .risingLoad = .ok plan ∧
    ∀ stage ∈ plan.stages, stage.Legal (hosts.IsBucketStart .risingLoad) := by
  obtain ⟨plan, ok⟩ := plan_risingLoad
  have dialect : hosts.dialect = Sql.Database.postgres.dialect := rfl
  have registry : hosts.registry = .builtin := rfl
  exact ⟨plan, ok, legal_plan dialect registry ok⟩

end Compiler

end Rollup
