import Rollup.Proofs.Compiler

/-! Plans are well scoped.

The first stage reads stored columns of the table, and every later stage reads fields of the stage
below it. Where names of fields are visible in conditions, the condition of the last stage may also
read its own fields. Only the last stage sorts and cuts off rows, and it sorts by its own fields.
-/

set_option autoImplicit false

namespace Rollup

def clauseColumns : Option Sql.Expr → List String
  | none => []
  | some e => e.columns

/-- A stage that reads a table. -/
structure Stage.IsBase (schema : Schema) (stage : Stage) : Prop where
  source : stage.source = .table schema.table
  fields : ∀ name ∈ stage.inputColumns, schema.isStored name = true
  filter : ∀ name ∈ clauseColumns stage.filter, schema.isStored name = true
  groupBy : ∀ e ∈ stage.groupBy, ∀ name ∈ e.columns,
    schema.isStored name = true ∨ name = bucketName ∧ bucketName ∈ stage.names
  having : ∀ name ∈ clauseColumns stage.having, schema.isStored name = true

/-- A stage that reads the fields of another, and in its condition on rows also certain fields of
its own. -/
structure Stage.IsAbove (stage below : Stage) (own : List String) : Prop where
  source : stage.source = .previous
  fields : ∀ name ∈ stage.inputColumns, name ∈ below.names
  filter : ∀ name ∈ clauseColumns stage.filter, name ∈ below.names ∨ name ∈ own
  groupBy : ∀ e ∈ stage.groupBy, ∀ name ∈ e.columns, name ∈ below.names
  having : ∀ name ∈ clauseColumns stage.having, name ∈ below.names

structure Plan.WellScoped (schema : Schema) (aliasInWhere : Bool) (plan : Plan) : Prop where
  base : ∃ first rest, plan.stages = first :: rest ∧ first.IsBase schema
  above : ∀ index below stage, plan.stages[index]? = some below →
    plan.stages[index + 1]? = some stage →
    stage.IsAbove below (if aliasInWhere && index + 2 == plan.depth then stage.names else [])
  whole : ∀ index stage, plan.stages[index]? = some stage → index + 1 < plan.depth →
    stage.orderBy = [] ∧ stage.rows = none
  sorted : ∀ last, plan.outermost? = some last → ∀ order ∈ last.orderBy,
    ∀ name ∈ order.key.columns, name ∈ last.names

namespace StageBuilder

variable {b : StageBuilder} {scope : Scope} {P : String → Prop} {stage : Stage}

-- The invariant of scoping: one statement for each place where references are written, from the
-- table up. Every clause of a stage follows from that of the place where it is written.

/-- All that can be written in a scope reads certain columns only. -/
structure Readable (b : StageBuilder) (scope : Scope) (P : String → Prop) : Prop where
  inner : ∀ target : Reference, target.isInner = true → ∀ x,
    b.renderer.innerReference scope target = .ok x → ∀ name ∈ x.columns, P name
  bucket : ∀ bucket, b.BucketAt scope bucket → ∀ e, bucket = some e → ∀ name ∈ e.columns, P name

/-! ## Columns that are readable -/

theorem inner_of_plain (refers : b.Refers) (early : scope ≠ .groups)
    (plain : ∀ target : Reference, target.isLifted = true → ∀ x,
      b.renderer.plainReference scope target = .ok x → ∀ name ∈ x.columns, P name) :
    ∀ target : Reference, target.isInner = true → ∀ x,
      b.renderer.innerReference scope target = .ok x → ∀ name ∈ x.columns, P name := by
  intro target is x ok
  cases target with
  | key index => exact plain (.key index) rfl x ok
  | aggregate index => exact plain (.aggregate index) rfl x ok
  | shared index =>
    obtain ⟨part, found, ok⟩ := (Renderer.shared_of_expr early).mp ok
    have lifted := refers.shared part (List.mem_of_getElem? found)
    exact Renderer.columns_groupExpr (fun target member => plain target (lifted target member)) ok
  | _ => cases is

theorem columns_bucketStart? (regular : b.renderer.dialect.Regular) {schema : Schema}
    (stored : b.Stored schema) {e : Sql.Expr} (start : b.bucketStart? = .ok (some e)) :
    ∀ name ∈ e.columns, schema.isStored name = true := by
  rcases bucketStart?_eq_ok start with ⟨-, absent⟩ | ⟨-, time, step, floor, found, -, floored, same⟩
  · cases absent
  · cases same
    intro name member
    have read := (regular.timeFloor floored).columns member
    obtain rfl : name = time.column := by simpa using read
    rw [stored.time time found]
    exact stored.timeColumn

theorem readable_table (regular : b.renderer.dialect.Regular) {schema : Schema}
    (stored : b.Stored schema) (refers : b.Refers)
    (grouped : ∀ slot ∈ b.renderer.slots, slot.windowed = false) :
    b.Readable .table (schema.isStored · = true) where
  inner := by
    refine inner_of_plain refers (by simp) fun target is x ok name member => ?_
    cases target with
    | key index =>
      obtain ⟨key, found, rfl⟩ := Renderer.key_eq_ok.mp ok
      obtain rfl := List.mem_singleton.mp member
      exact stored.keys key (List.mem_of_getElem? found)
    | aggregate index =>
      obtain ⟨slot, found, ok⟩ := Renderer.aggregate_eq_ok.mp ok
      have listed := List.mem_of_getElem? found
      rw [Renderer.slotExpr_of_call (by simp) (grouped slot listed)] at ok
      have read := (Renderer.over_aggregate regular ok).columns member
      simp only [List.flatMap_map, Sql.Expr.columns_named, List.flatMap_singleton'] at read
      rcases Compiler.columns_slotColumns read with read | rfl
      · exact stored.slots slot listed name read
      · exact stored.timeColumn
    | _ => cases is
  bucket := by
    rintro bucket start e rfl
    exact columns_bucketStart? regular stored start

theorem readable_window (regular : b.renderer.dialect.Regular) (refers : b.Refers)
    (carries : ∀ slot ∈ b.renderer.slots, slot.windowed = false →
      ∀ column ∈ Compiler.slotColumns b.renderer.timeColumn slot,
        column ∈ b.carried ∨ GroupKey.mk column column ∈ b.keys)
    (windows : b.Windows stage) : b.Readable .window (· ∈ stage.names) where
  inner := by
    refine inner_of_plain refers (by simp) fun target is x ok name member => ?_
    rw [windows.names, List.append_assoc, List.append_assoc]
    cases target with
    | key index =>
      obtain ⟨key, found, rfl⟩ := Renderer.key_eq_ok.mp ok
      obtain rfl := List.mem_singleton.mp member
      exact List.mem_append_right _ (List.mem_append_left _
        (List.mem_map_of_mem (List.mem_of_getElem? found)))
    | aggregate index =>
      obtain ⟨slot, found, ok⟩ := Renderer.aggregate_eq_ok.mp ok
      have listed := List.mem_of_getElem? found
      cases windowed : slot.windowed with
      | true =>
        obtain ⟨given, named, rfl⟩ := (Renderer.slotExpr_of_name (.inr windowed)).mp ok
        obtain rfl := List.mem_singleton.mp member
        refine List.mem_append_right _ (List.mem_append_right _ (List.mem_append_right _ ?_))
        exact mem_fieldNames.mpr ⟨slot, mem_windowSlots.mpr ⟨listed, windowed⟩, named⟩
      | false =>
        -- This is the aggregate that needs carried columns: it is computed behind the window stage.
        rw [Renderer.slotExpr_of_call (by simp) windowed] at ok
        have read := (Renderer.over_aggregate regular ok).columns member
        simp only [List.flatMap_map, Sql.Expr.columns_named, List.flatMap_singleton'] at read
        rcases carries slot listed windowed name read with carried | key
        · exact List.mem_append_right _ (List.mem_append_right _ (List.mem_append_left _ carried))
        · exact List.mem_append_right _ (List.mem_append_left _ (List.mem_map_of_mem key))
    | _ => cases is
  bucket := by
    rintro bucket rfl e there name member
    obtain ⟨bucketed, rfl⟩ := passedBucket_eq_some.mp there
    rw [windows.names]
    exact List.mem_append_left _ (List.mem_append_left _ (List.mem_append_left _
      (mem_bucketNames.mpr ⟨bucketed, List.mem_singleton.mp member⟩)))

theorem readable_groups (passes : b.Passes scope stage)
    (early : scope = .table → ∀ slot ∈ b.renderer.slots, slot.windowed = false) :
    b.Readable .groups (· ∈ stage.names) where
  inner := by
    intro target is x ok name member
    have listed : ∀ {field : Field}, field ∈ stage.fields → field.name ∈ stage.names :=
      List.mem_map_of_mem
    cases target with
    | key index =>
      obtain ⟨key, found, rfl⟩ := Renderer.key_eq_ok.mp ok
      obtain rfl := List.mem_singleton.mp member
      exact listed (passes.key_mem (List.mem_of_getElem? found))
    | aggregate index =>
      obtain ⟨slot, found, ok⟩ := Renderer.aggregate_eq_ok.mp ok
      obtain ⟨given, named, rfl⟩ := (Renderer.slotExpr_of_name (.inl rfl)).mp ok
      obtain rfl := List.mem_singleton.mp member
      have among := List.mem_of_getElem? found
      cases windowed : slot.windowed with
      | true =>
        refine listed (passes.window_mem (fun table => ?_) among windowed named)
        cases windowed.symm.trans (early table slot among)
      | false =>
        obtain ⟨e, -, field⟩ := passes.slot_mem among windowed named
        exact listed field
    | shared index =>
      obtain ⟨part, found, given, named, rfl⟩ := Renderer.shared_of_name.mp ok
      obtain rfl := List.mem_singleton.mp member
      obtain ⟨e, -, field⟩ := passes.shared_mem (List.mem_of_getElem? found) named
      exact listed field
    | _ => cases is
  bucket := by
    rintro bucket rfl e there name member
    obtain ⟨bucketed, rfl⟩ := passedBucket_eq_some.mp there
    rw [passes.names]
    exact List.mem_append_left _ (List.mem_append_left _
      (mem_bucketNames.mpr ⟨bucketed, List.mem_singleton.mp member⟩))

/-! ## Clauses -/

theorem mem_inputColumns {name : String} :
    name ∈ stage.inputColumns ↔ ∃ field ∈ stage.fields, name ∈ field.expr.columns := by
  rw [Stage.inputColumns, mem_firstSeen, List.mem_flatMap]

theorem mem_clauseColumns {conditions : List Sql.Expr} {name : String} :
    name ∈ clauseColumns (Sql.conjunction? conditions) ↔
      ∃ condition ∈ conditions, name ∈ condition.columns := by
  rw [← List.mem_flatMap]
  cases joined : Sql.conjunction? conditions with
  | none =>
    cases conditions with
    | nil => rfl
    | cons first rest => cases joined
  | some e => rw [← Sql.Expr.columns_conjunction? joined, clauseColumns]

namespace Readable
variable (readable : b.Readable scope P)
include readable

theorem expr {e : GroupExpr} {x : Sql.Expr}
    (inner : ∀ target ∈ e.references, target.isInner = true)
    (ok : b.renderer.render scope e = .ok x) : ∀ name ∈ x.columns, P name :=
  Renderer.columns_groupExpr (fun target member => readable.inner target (inner target member))
    (Renderer.render_of_isInner inner ok)

theorem fields (refers : b.Refers) (fields : ∀ field ∈ stage.fields, b.IsField scope field) :
    ∀ name ∈ stage.inputColumns, P name := by
  intro name member
  obtain ⟨field, listed, read⟩ := mem_inputColumns.mp member
  cases fields field listed with
  | bucket start => exact readable.bucket _ start field.expr rfl name read
  | reference lifted ok =>
    exact readable.inner _ (Reference.isInner_of_isLifted lifted) _
      ((Renderer.innerReference_of_isLifted lifted).trans ok) name read
  | output among ok => exact readable.expr (refers.outputs _ among) ok name read
  | shared among ok =>
    exact readable.expr (fun target member =>
      Reference.isInner_of_isLifted (refers.shared _ among target member)) ok name read

theorem having (refers : b.Refers) {filter : Option Sql.Expr}
    (ok : b.groupFilter scope = .ok filter) : ∀ name ∈ clauseColumns filter, P name := by
  obtain ⟨written, each, rfl⟩ := groupFilter_eq_ok.mp ok
  intro name member
  obtain ⟨x, listed, read⟩ := mem_clauseColumns.mp member
  obtain ⟨condition, among, ok⟩ := related_of_mem_right each listed
  obtain ⟨among, level⟩ := List.mem_filter.mp among
  exact readable.expr (fun target member => Reference.isInner_of_isLifted
    (refers.group condition among (beq_iff_eq.mp level) target member)) ok name read

end Readable

theorem stored_rowFilter (regular : b.renderer.dialect.Regular) {schema : Schema}
    (stored : b.Stored schema) (refers : b.Refers) {filter : Option Sql.Expr}
    (ok : b.rowFilter = .ok filter) :
    ∀ name ∈ clauseColumns filter, schema.isStored name = true := by
  obtain ⟨written, each, rfl⟩ := rowFilter_eq_ok.mp ok
  intro name member
  obtain ⟨x, listed, read⟩ := mem_clauseColumns.mp member
  rcases List.mem_append.mp listed with listed | listed
  · -- Both bounds compare the column of time with a constant.
    unfold timeConditions at listed
    split at listed
    · cases listed
    · rename_i time found
      have bound : ∀ {op : Sql.BinaryOp} {t : Instant},
          x = .binary op (.named time.column) (b.renderer.dialect.timestamp t) →
          schema.isStored name = true := by
        rintro op t rfl
        rw [Sql.Expr.columns, regular.timestamp, List.append_nil, Sql.Expr.columns_named] at read
        rw [List.mem_singleton.mp read, stored.time time found]
        exact stored.timeColumn
      rcases List.mem_cons.mp listed with lower | listed
      · exact bound lower
      · exact bound (List.mem_singleton.mp listed)
  · obtain ⟨condition, among, ok⟩ := related_of_mem_right each listed
    obtain ⟨among, level⟩ := List.mem_filter.mp among
    -- A condition on rows refers to columns, which were stored when it was lifted, and to keys.
    refine Renderer.columns_groupExpr (P := (schema.isStored · = true))
      (fun target member x ok => ?_) ok name read
    rcases refers.row condition among (beq_iff_eq.mp level) target member with
      ⟨column, rfl⟩ | ⟨index, rfl⟩
    · cases ok
      intro other read
      obtain rfl := List.mem_singleton.mp read
      exact stored.conditions condition among other member
    · obtain ⟨key, found, rfl⟩ := Renderer.key_eq_ok.mp ok
      intro other read
      obtain rfl := List.mem_singleton.mp read
      exact stored.keys key (List.mem_of_getElem? found)

/-- The condition of a last stage reads the stage below it, and its own fields where they are
visible. -/
theorem Computes.filter_reads (computes : b.Computes stage) (refers : b.Refers)
    (readable : b.Readable .groups P) :
    ∀ name ∈ clauseColumns stage.filter,
      P name ∨ b.renderer.dialect.aliasInWhere = true ∧ name ∈ stage.names := by
  obtain ⟨written, each, same⟩ := outputFilter_eq_ok.mp computes.filter
  rw [same]
  intro name member
  obtain ⟨x, listed, read⟩ := mem_clauseColumns.mp member
  obtain ⟨condition, among, ok⟩ := related_of_mem_right each listed
  obtain ⟨among, level⟩ := List.mem_filter.mp among
  refine Renderer.columns_groupExpr
    (P := fun name => P name ∨ b.renderer.dialect.aliasInWhere = true ∧ name ∈ stage.names)
    (fun target member x ok => ?_) ok name read
  rcases refers.output condition among (beq_iff_eq.mp level) target member with
    lifted | ⟨index, output, rfl, found, computed⟩
  · have inner := Reference.isInner_of_isLifted lifted
    rw [Renderer.reference_of_isInner inner] at ok
    exact fun name read => .inl (readable.inner target inner x ok name read)
  · obtain ⟨output', found', written⟩ := Renderer.output_eq_ok.mp ok
    cases found.symm.trans found'
    have listed := List.mem_of_getElem? found
    -- An output is read by its name where that is visible, else it is computed once more.
    split at written
    · rename_i visible
      intro other read
      rw [← written] at read
      obtain rfl := List.mem_singleton.mp read
      rw [computes.toSelects.names]
      refine .inr ⟨visible, List.mem_append_right _ (List.mem_map_of_mem ?_)⟩
      exact List.mem_filter.mpr ⟨listed, by rw [Output.isKey_of_computed computed]; rfl⟩
    · exact fun other read => .inl (Renderer.columns_groupExpr
        (fun target member => readable.inner target (refers.outputs output listed target member))
        written other read)

/-! ## Stages -/

variable {schema : Schema}

theorem GroupsTable.isBase (groups : b.GroupsTable stage) (table : b.table = schema.table)
    (regular : b.renderer.dialect.Regular) (stored : b.Stored schema) (refers : b.Refers)
    (grouped : ∀ slot ∈ b.renderer.slots, slot.windowed = false)
    (fields : ∀ name ∈ stage.inputColumns, schema.isStored name = true)
    (head : b.bucketNames ⊆ stage.names) : stage.IsBase schema where
  source := table ▸ groups.source
  fields := fields
  filter := stored_rowFilter regular stored refers groups.filter
  groupBy := by
    intro e member name read
    rw [groups.groupBy] at member
    rcases List.mem_append.mp member with member | member
    · obtain ⟨key, listed, rfl⟩ := List.mem_map.mp member
      obtain rfl := List.mem_singleton.mp read
      exact .inl (stored.keys key listed)
    · obtain ⟨bucketed, rfl⟩ := mem_bucketColumn.mp member
      exact .inr ⟨List.mem_singleton.mp read, head (mem_bucketNames.mpr ⟨bucketed, rfl⟩)⟩
  having := (readable_table regular stored refers grouped).having refers groups.having

theorem Windows.isBase (windows : b.Windows stage) (table : b.table = schema.table)
    (regular : b.renderer.dialect.Regular) (stored : b.Stored schema) (refers : b.Refers) :
    stage.IsBase schema where
  source := table ▸ windows.source
  fields := by
    obtain ⟨bucket, results, start, each, fields⟩ := windows.fields
    have bucketed : ∀ e, bucket = some e → ∀ name ∈ e.columns, schema.isStored name = true := by
      rintro e rfl
      exact columns_bucketStart? regular stored start
    intro name member
    obtain ⟨field, listed, read⟩ := mem_inputColumns.mp member
    rw [fields] at listed
    simp only [List.mem_append] at listed
    rcases listed with ((listed | listed) | listed) | listed
    · cases bucket with
      | none => cases listed
      | some e =>
        obtain rfl := List.mem_singleton.mp listed
        exact bucketed e rfl name read
    · obtain ⟨key, keyed, rfl⟩ := List.mem_map.mp listed
      obtain rfl := List.mem_singleton.mp read
      exact stored.keys key keyed
    · obtain ⟨column, passed, rfl⟩ := List.mem_map.mp listed
      obtain rfl := List.mem_singleton.mp read
      exact stored.carried name passed
    · obtain ⟨slot, among, -, written⟩ := related_of_mem_right each listed
      -- A window function reads its argument, the partition and the time.
      rcases (Renderer.columns_windowCall written).2 name read with read | read | rfl
      · exact stored.slots slot (mem_windowSlots.mp among).1 name read
      · obtain ⟨part, listed, read⟩ := List.mem_flatMap.mp read
        rcases List.mem_append.mp listed with listed | listed
        · obtain ⟨key, keyed, rfl⟩ := List.mem_map.mp listed
          obtain rfl := List.mem_singleton.mp read
          exact stored.keys key keyed
        · exact bucketed part (Option.mem_toList.mp listed) name read
      · exact stored.timeColumn
  filter := stored_rowFilter regular stored refers windows.filter
  groupBy := by
    rw [windows.groupBy]
    exact fun e member => absurd member List.not_mem_nil
  having := by
    rw [windows.having]
    exact fun name member => absurd member List.not_mem_nil

theorem GroupsWindow.isAbove {first : Stage} (groups : b.GroupsWindow stage)
    (windows : b.Windows first) (refers : b.Refers)
    (readable : b.Readable .window (· ∈ first.names))
    (fields : ∀ name ∈ stage.inputColumns, name ∈ first.names) (own : List String) :
    stage.IsAbove first own where
  source := groups.source
  fields := fields
  filter := by
    rw [groups.filter]
    exact fun name member => absurd member List.not_mem_nil
  groupBy := by
    intro e member name read
    rw [groups.groupBy] at member
    rw [windows.names]
    simp only [List.mem_append] at member ⊢
    rcases member with (member | member) | member
    · obtain ⟨key, listed, rfl⟩ := List.mem_map.mp member
      obtain rfl := List.mem_singleton.mp read
      exact .inl (.inl (.inr (List.mem_map_of_mem listed)))
    · obtain ⟨given, listed, rfl⟩ := List.mem_map.mp member
      obtain rfl := List.mem_singleton.mp read
      exact .inr listed
    · obtain ⟨bucketed, rfl⟩ := mem_bucketColumn.mp member
      exact .inl (.inl (.inl (mem_bucketNames.mpr ⟨bucketed, List.mem_singleton.mp read⟩)))
  having := readable.having refers groups.having

theorem Computes.isAbove {below : Stage} (computes : b.Computes stage) (refers : b.Refers)
    (readable : b.Readable .groups (· ∈ below.names)) :
    stage.IsAbove below (if b.renderer.dialect.aliasInWhere then stage.names else []) where
  source := computes.source
  fields := readable.fields refers computes.isField
  filter name member := by
    refine (computes.filter_reads refers readable name member).imp_right fun ⟨visible, own⟩ => ?_
    rw [if_pos visible]
    exact own
  groupBy := by
    rw [computes.groupBy]
    exact fun e member => absurd member List.not_mem_nil
  having := by
    rw [computes.having]
    exact fun name member => absurd member List.not_mem_nil

end StageBuilder

namespace Plan

variable {schema : Schema} {visible : Bool} {first second last : Stage}
  {orderBy : List (Sql.SortKey Sql.Expr)} {rows : Option Sql.RowWindow}

theorem wellScoped_one (base : last.IsBase schema)
    (sorted : ∀ order ∈ orderBy, ∀ name ∈ order.key.columns, name ∈ last.names) :
    Plan.WellScoped schema visible ⟨Compiler.finish orderBy rows [last]⟩ where
  base := ⟨_, [], rfl, base.source, base.fields, base.filter, base.groupBy, base.having⟩
  above := by rintro (_ | index) below stage - found <;> cases found
  whole := by
    rintro (_ | index) stage - early
    · exact absurd early (Nat.lt_irrefl _)
    · exact absurd early (by simp [depth, Compiler.finish])
  sorted := by
    rintro top ⟨rfl⟩
    exact sorted

theorem wellScoped_two (base : first.IsBase schema)
    (above : last.IsAbove first (if visible then last.names else []))
    (whole : first.orderBy = [] ∧ first.rows = none)
    (sorted : ∀ order ∈ orderBy, ∀ name ∈ order.key.columns, name ∈ last.names) :
    Plan.WellScoped schema visible ⟨Compiler.finish orderBy rows [first, last]⟩ where
  base := ⟨first, _, rfl, base⟩
  above := by
    rintro (_ | _ | index) below stage under found <;> cases under <;> cases found
    rw [show (visible && 0 + 2 == depth _) = visible from Bool.and_true _]
    exact ⟨above.source, above.fields, above.filter, above.groupBy, above.having⟩
  whole := by
    rintro (_ | _ | index) stage found early
    · cases found
      exact whole
    · exact absurd early (Nat.lt_irrefl _)
    · cases found
  sorted := by
    rintro top ⟨rfl⟩
    exact sorted

theorem wellScoped_three (base : first.IsBase schema) (inner : second.IsAbove first [])
    (above : last.IsAbove second (if visible then last.names else []))
    (whole : first.orderBy = [] ∧ first.rows = none)
    (whole' : second.orderBy = [] ∧ second.rows = none)
    (sorted : ∀ order ∈ orderBy, ∀ name ∈ order.key.columns, name ∈ last.names) :
    Plan.WellScoped schema visible ⟨Compiler.finish orderBy rows [first, second, last]⟩ where
  base := ⟨first, _, rfl, base⟩
  above := by
    rintro (_ | _ | _ | index) below stage under found <;> cases under <;> cases found
    · rw [show (visible && 0 + 2 == depth _) = false from Bool.and_false _]
      exact inner
    · rw [show (visible && 0 + 1 + 2 == depth _) = visible from Bool.and_true _]
      exact ⟨above.source, above.fields, above.filter, above.groupBy, above.having⟩
  whole := by
    rintro (_ | _ | _ | index) stage found early
    · cases found
      exact whole
    · cases found
      exact whole'
    · exact absurd early (Nat.lt_irrefl _)
    · cases found
  sorted := by
    rintro top ⟨rfl⟩
    exact sorted

end Plan

namespace Compiler

theorem columns_sortKey {names : List String} {order : OrderBy}
    {key : Sql.SortKey Sql.Expr} (ok : sortKey names order = .ok key) :
    ∀ name ∈ key.key.columns, name ∈ names := by
  unfold sortKey at ok
  split at ok
  · rename_i listed
    cases ok
    intro name member
    obtain rfl := List.mem_singleton.mp member
    exact List.contains_iff_mem.mp listed
  · cases ok

/-- Every accepted plan is well scoped. -/
theorem wellScoped_plan {database : Sql.Database} {c : Compiler} {query : Query} {plan : Plan}
    (dialect : c.dialect = database.dialect) (ok : c.plan query = .ok plan) :
    plan.WellScoped c.schema c.dialect.aliasInWhere := by
  obtain ⟨seconds, a, carried, stages, orderBy, accepts⟩ := accepts_of_plan ok
  let b := c.builder query seconds a carried
  have sound : b.Sound (c.layoutOf a) c.schema := accepts.sound_builder
  have regular : b.renderer.dialect.Regular := by
    show c.dialect.Regular
    exact dialect ▸ Sql.regular_dialect database
  have stored := sound.stored
  have refers := sound.refers
  have names : a.names = b.bucketNames ++ b.keyNames ++ b.selected.map (·.name) :=
    accepts.names_builder
  -- The rows are sorted by columns of the result, which are the fields of the last stage.
  have sorted : ∀ {scope : Scope} {last : Stage}, b.Selects scope last → ∀ order ∈ orderBy,
      ∀ name ∈ order.key.columns, name ∈ last.names := by
    intro scope last selects order member
    obtain ⟨origin, -, ok⟩ := related_of_mem_right (mapM_eq_ok.mp accepts.sorted) member
    rw [selects.names, ← names]
    exact columns_sortKey ok
  obtain ⟨-, -, built⟩ := StageBuilder.built_build accepts.built
  rw [accepts.plan]
  generalize c.layoutOf a = layout at built sound
  cases built with
  | flat groups selects =>
    have grouped := sound.grouped rfl
    have readable := StageBuilder.readable_table regular stored refers grouped
    refine Plan.wellScoped_one (groups.isBase rfl regular stored refers grouped
      (readable.fields refers selects.isField) ?_) (sorted selects)
    rw [selects.names, List.append_assoc]
    exact List.subset_append_left _ _
  | computed groups passes computes =>
    have grouped := sound.grouped rfl
    have readable := StageBuilder.readable_table regular stored refers grouped
    refine Plan.wellScoped_two (groups.isBase rfl regular stored refers grouped
      (readable.fields refers (passes.isField (by simp))) ?_)
      (computes.isAbove refers (StageBuilder.readable_groups passes fun _ => grouped))
      groups.whole (sorted computes.toSelects)
    rw [passes.names, List.append_assoc]
    exact List.subset_append_left _ _
  | windowed windows groups selects =>
    have readable := StageBuilder.readable_window regular refers (sound.carries rfl) windows
    exact Plan.wellScoped_two (windows.isBase rfl regular stored refers)
      (groups.isAbove windows refers readable (readable.fields refers selects.isField) _)
      windows.whole (sorted selects)
  | windowedComputed windows groups passes computes =>
    have readable := StageBuilder.readable_window regular refers (sound.carries rfl) windows
    exact Plan.wellScoped_three (windows.isBase rfl regular stored refers)
      (groups.isAbove windows refers readable (readable.fields refers (passes.isField (by simp))) _)
      (computes.isAbove refers (StageBuilder.readable_groups passes fun table => nomatch table))
      windows.whole groups.whole (sorted computes.toSelects)

theorem wellScoped_risingLoad : ∃ plan, hosts.plan .risingLoad = .ok plan ∧
    plan.WellScoped Schema.hosts hosts.dialect.aliasInWhere := by
  obtain ⟨plan, ok⟩ := plan_risingLoad
  have dialect : hosts.dialect = Sql.Database.postgres.dialect := rfl
  exact ⟨plan, ok, wellScoped_plan dialect ok⟩

end Compiler

end Rollup
