import Rollup.Proofs.Staging.Legal

/-! What holds of every expression that is written into a stage.

A builder writes expressions in few ways: it puts them together, names columns, and uses the means
of the dialect for aggregates, window functions and times. So what is kept by these holds of all
clauses of all stages.
-/

set_option autoImplicit false

namespace Rollup

variable {b : StageBuilder} {Callable : String → Prop} {P : Sql.Expr → Prop} {scope : Scope}
  {stage : Stage}

theorem Stage.forall_exprs (unsorted : stage.orderBy = [])
    (fields : ∀ field ∈ stage.fields, P field.expr) (filter : ∀ e, stage.filter = some e → P e)
    (groupBy : ∀ e ∈ stage.groupBy, P e) (having : ∀ e, stage.having = some e → P e) :
    ∀ e ∈ stage.exprs, P e := by
  intro e member
  rcases (mem_exprs unsorted).mp member with ⟨field, listed, rfl⟩ | filtered | grouped | tested
  · exact fields field listed
  · exact filter e filtered
  · exact groupBy e grouped
  · exact having e tested

namespace StageBuilder

/-- A property that is kept by all ways in which a builder writes expressions. -/
structure Keeps (b : StageBuilder) (Callable : String → Prop) (P : Sql.Expr → Prop) : Prop where
  congruent : Renderer.CongruentFor Callable fun written _ => P written
  named (name : String) : P (.named name)
  aggregate : ∀ slot ∈ b.renderer.slots, ∀ e, b.renderer.aggregate slot.call = .ok e → P e
  window : ∀ slot ∈ b.renderer.slots, ∀ partitionBy, (∀ part ∈ partitionBy, P part) →
    ∀ e, b.renderer.windowCall slot.call partitionBy = .ok e → P e
  bucket : ∀ e, b.bucketStart? = .ok (some e) → P e
  time : ∀ e ∈ b.timeConditions, P e

namespace Keeps
variable (keeps : b.Keeps Callable P)
include keeps

theorem and {left right : Sql.Expr} (l : P left) (r : P right) :
    P (.binary .and left right) :=
  @Renderer.CongruentFor.combine _ _ keeps.congruent left left right right .and l r

/-! ## References -/

theorem plain {target : Reference} {x : Sql.Expr}
    (ok : b.renderer.plainReference scope target = .ok x) : P x := by
  cases target with
  | column name =>
    cases ok
    exact keeps.named name
  | key index =>
    obtain ⟨key, -, rfl⟩ := Renderer.key_eq_ok.mp ok
    cases scope <;> exact keeps.named _
  | aggregate index =>
    obtain ⟨slot, found, ok⟩ := Renderer.aggregate_eq_ok.mp ok
    by_cases late : scope = .groups ∨ slot.windowed = true
    · obtain ⟨name, -, rfl⟩ := (Renderer.slotExpr_of_name late).mp ok
      exact keeps.named name
    · obtain ⟨early, grouped⟩ := not_or.mp late
      rw [Renderer.slotExpr_of_call early (Bool.eq_false_iff.mpr grouped)] at ok
      exact keeps.aggregate slot (List.mem_of_getElem? found) x ok
  | shared index => cases ok
  | output index => cases ok

variable (calls : b.Calls Callable)
include calls

theorem inner {target : Reference} {x : Sql.Expr}
    (ok : b.renderer.innerReference scope target = .ok x) : P x := by
  cases target with
  | shared index =>
    by_cases late : scope = .groups
    · subst late
      obtain ⟨part, -, name, -, rfl⟩ := Renderer.shared_of_name.mp ok
      exact keeps.named name
    · obtain ⟨part, found, ok⟩ := (Renderer.shared_of_expr late).mp ok
      obtain ⟨-, -, holds⟩ := Renderer.groupExpr_related keeps.congruent
        (calls.shared part (List.mem_of_getElem? found))
        (fun target _ y ok => ⟨y, ok, keeps.plain ok⟩) ok
      exact holds
  | _ =>
    simp only [Renderer.innerReference] at ok
    exact keeps.plain ok

theorem reference {target : Reference} {x : Sql.Expr}
    (ok : b.renderer.reference scope target = .ok x) : P x := by
  cases target with
  | output index =>
    simp only [Renderer.reference, Renderer.outputExpr, bind_eq_ok, Renderer.target_eq_ok] at ok
    obtain ⟨output, found, ok⟩ := ok
    split at ok
    · cases ok
    · split at ok
      · cases ok
        exact keeps.named output.name
      · obtain ⟨-, -, holds⟩ := Renderer.groupExpr_related keeps.congruent
          (calls.outputs output (List.mem_of_getElem? found))
          (fun target _ y ok => ⟨y, ok, keeps.inner calls ok⟩) ok
        exact holds
  | _ =>
    simp only [Renderer.reference] at ok
    exact keeps.inner calls ok

theorem render {e : GroupExpr} {x : Sql.Expr} (called : ∀ name ∈ e.calls, Callable name)
    (ok : b.renderer.render scope e = .ok x) : P x := by
  obtain ⟨-, -, holds⟩ := Renderer.groupExpr_related keeps.congruent called
    (fun target _ y ok => ⟨y, ok, keeps.reference calls ok⟩) ok
  exact holds

/-! ## Clauses -/

theorem field {field : Field} (is : b.IsField scope field) : P field.expr := by
  cases is with
  | bucket start =>
    cases scope with
    | table => exact keeps.bucket _ start
    | _ => exact (passedBucket_eq_some.mp start.symm).2 ▸ keeps.named bucketName
  | reference _ ok => exact keeps.plain ok
  | output among ok => exact keeps.render calls (calls.outputs _ among) ok
  | shared among ok => exact keeps.render calls (calls.shared _ among) ok

theorem written {level : Level} {written : List Sql.Expr} (each : b.Written level scope written) :
    ∀ e ∈ written, P e := by
  intro e member
  obtain ⟨condition, among, ok⟩ := related_of_mem_right each member
  exact keeps.render calls (calls.conditions condition (List.mem_filter.mp among).1) ok

omit calls in
theorem joined {conditions : List Sql.Expr} (each : ∀ e ∈ conditions, P e) :
    ∀ e, Sql.conjunction? conditions = some e → P e :=
  fun _ joined => Sql.Expr.forall_conjunction? (fun _ _ => keeps.and) each joined

theorem rowFilter {filter : Option Sql.Expr} (ok : b.rowFilter = .ok filter) :
    ∀ e, filter = some e → P e := by
  obtain ⟨written, each, rfl⟩ := rowFilter_eq_ok.mp ok
  exact keeps.joined (List.forall_mem_append.mpr ⟨keeps.time, keeps.written calls each⟩)

theorem groupFilter {filter : Option Sql.Expr} (ok : b.groupFilter scope = .ok filter) :
    ∀ e, filter = some e → P e := by
  obtain ⟨written, each, rfl⟩ := groupFilter_eq_ok.mp ok
  exact keeps.joined (keeps.written calls each)

theorem outputFilter {filter : Option Sql.Expr} (ok : b.outputFilter = .ok filter) :
    ∀ e, filter = some e → P e := by
  obtain ⟨written, each, rfl⟩ := outputFilter_eq_ok.mp ok
  exact keeps.joined (keeps.written calls each)

/-! ## Stages -/

omit calls in
theorem bucketColumn : ∀ e ∈ b.bucketColumn, P e := by
  intro e member
  obtain ⟨-, rfl⟩ := mem_bucketColumn.mp member
  exact keeps.named bucketName

theorem windows (windows : b.Windows stage) : ∀ e ∈ stage.exprs, P e := by
  obtain ⟨bucket, results, start, each, fields⟩ := windows.fields
  have floored : ∀ e ∈ bucket.toList, P e := by
    intro e member
    obtain rfl := Option.mem_toList.mp member
    exact keeps.bucket e start
  have parts : ∀ part ∈ b.partition bucket, P part := by
    refine List.forall_mem_append.mpr ⟨fun part member => ?_, floored⟩
    obtain ⟨key, -, rfl⟩ := List.mem_map.mp member
    exact keeps.named key.column
  refine Stage.forall_exprs windows.whole.1 ?_ (keeps.rowFilter calls windows.filter) ?_ ?_
  · have head : ∀ field ∈ bucketFields bucket ++ b.keyFields .table, P field.expr :=
      fun field member => keeps.field calls (isField_head start field member)
    rw [fields, List.append_assoc]
    refine List.forall_mem_append.mpr ⟨head,
      List.forall_mem_append.mpr ⟨fun field member => ?_, fun field member => ?_⟩⟩
    · obtain ⟨column, -, rfl⟩ := List.mem_map.mp member
      exact keeps.named column
    · obtain ⟨slot, among, -, ok⟩ := related_of_mem_right each member
      exact keeps.window slot (mem_windowSlots.mp among).1 _ parts _ ok
  · simp [windows.groupBy]
  · simp [windows.having]

theorem groupsTable (groups : b.GroupsTable stage)
    (fields : ∀ field ∈ stage.fields, b.IsField .table field) : ∀ e ∈ stage.exprs, P e := by
  refine Stage.forall_exprs groups.whole.1
    (fun field listed => keeps.field calls (fields field listed))
    (keeps.rowFilter calls groups.filter) ?_ (keeps.groupFilter calls groups.having)
  rw [groups.groupBy]
  refine List.forall_mem_append.mpr ⟨fun e member => ?_, keeps.bucketColumn⟩
  obtain ⟨key, -, rfl⟩ := List.mem_map.mp member
  exact keeps.named key.column

theorem groupsWindow (groups : b.GroupsWindow stage)
    (fields : ∀ field ∈ stage.fields, b.IsField .window field) : ∀ e ∈ stage.exprs, P e := by
  refine Stage.forall_exprs groups.whole.1
    (fun field listed => keeps.field calls (fields field listed)) (by simp [groups.filter]) ?_
    (keeps.groupFilter calls groups.having)
  rw [groups.groupBy]
  refine List.forall_mem_append.mpr ⟨List.forall_mem_append.mpr ⟨fun e member => ?_,
    fun e member => ?_⟩, keeps.bucketColumn⟩
  · obtain ⟨key, -, rfl⟩ := List.mem_map.mp member
    exact keeps.named key.name
  · obtain ⟨name, -, rfl⟩ := List.mem_map.mp member
    exact keeps.named name

theorem computes (computes : b.Computes stage) : ∀ e ∈ stage.exprs, P e :=
  Stage.forall_exprs computes.whole.1
    (fun field listed => keeps.field calls (computes.isField field listed))
    (keeps.outputFilter calls computes.filter) (by simp [computes.groupBy])
    (by simp [computes.having])

theorem built {layout : Layout} {stages : List Stage} (built : b.Built layout stages) :
    ∀ stage ∈ stages, ∀ e ∈ stage.exprs, P e := by
  intro stage member
  cases built.isStage member with
  | flat _ groups selects => exact keeps.groupsTable calls groups selects.isField
  | groups _ groups passes => exact keeps.groupsTable calls groups (passes.isField (by simp))
  | windows windows => exact keeps.windows calls windows
  | regroups _ _ _ groups selects => exact keeps.groupsWindow calls groups selects.isField
  | passes _ _ _ groups passes =>
    exact keeps.groupsWindow calls groups (passes.isField (by simp))
  | last computes => exact keeps.computes calls computes

end Keeps

end StageBuilder

namespace Compiler

/-- What is kept by the builder of an accepted query holds of all that the statement says. -/
theorem Accepts.keeps {c : Compiler} {query : Query} {plan : Plan} {seconds : Option Int}
    {a : Analysis} {carried : List String} {stages : List Stage}
    {orderBy : List (Sql.SortKey Sql.Expr)}
    (accepts : c.Accepts query plan seconds a carried stages orderBy)
    (calls : (c.builder query seconds a carried).Calls Callable)
    (keeps : (c.builder query seconds a carried).Keeps Callable P) :
    ∀ stage ∈ plan.stages, ∀ e ∈ stage.exprs, P e := by
  obtain ⟨-, -, built⟩ := StageBuilder.built_build accepts.built
  have each := keeps.built calls built
  intro stage member e read
  rw [accepts.plan] at member
  obtain ⟨origin, listed, rfl | rfl⟩ := mem_finish member
  · exact each stage listed e read
  · -- Rows are sorted by their names.
    rcases List.mem_append.mp read with read | read
    · exact each origin listed e (List.mem_append_left _ read)
    · obtain ⟨order, sorted, rfl⟩ := List.mem_map.mp read
      obtain ⟨given, -, ok⟩ := related_of_mem_right (mapM_eq_ok.mp accepts.sorted) sorted
      unfold sortKey at ok
      split at ok
      · cases ok
        exact keeps.named given.name
      · cases ok

end Compiler

end Rollup
