import Rollup.Proofs.Group.Part
import Rollup.Proofs.Staging.Legal

/-! The parts of an expression go where it goes, to the end.

A part of what is written is written inside of it. Only a null value that something is compared with
is left out, since the comparison becomes a test that has one operand. An aggregate contains its
argument, whatever means a database has for it.
-/

set_option autoImplicit false

namespace Rollup

namespace Sql

namespace Expr
variable {x y z : Expr}

theorem self_mem_nodes (e : Expr) : e ∈ e.nodes := by
  cases e <;> simp [nodes]

/-- An expression is inside of another one, if null values are left out of account. -/
def Within (y x : Expr) : Prop := y.nodes ⊆ .literal .null :: x.nodes

theorem within_of_subset (inside : y.nodes ⊆ x.nodes) : y.Within x :=
  List.Subset.trans inside (List.subset_cons_self _ _)

theorem Within.refl (x : Expr) : x.Within x := within_of_subset (List.Subset.refl _)

theorem Within.trans (inner : z.Within y) (outer : y.Within x) : z.Within x := by
  intro node member
  rcases List.mem_cons.mp (inner member) with rfl | member
  · exact List.mem_cons_self
  · exact outer member

theorem within_left (op : BinaryOp) (left right : Expr) : left.Within (.binary op left right) :=
  within_of_subset fun _ member => List.mem_cons_of_mem _ (List.mem_append_left _ member)

theorem within_right (op : BinaryOp) (left right : Expr) : right.Within (.binary op left right) :=
  within_of_subset fun _ member => List.mem_cons_of_mem _ (List.mem_append_right _ member)

theorem within_unary (op : UnaryOp) (operand : Expr) : operand.Within (.unary op operand) :=
  within_of_subset fun _ => List.mem_cons_of_mem _

theorem within_isNull (operand : Expr) (negated : Bool) :
    operand.Within (.isNull operand negated) :=
  within_of_subset fun _ => List.mem_cons_of_mem _

theorem within_operand (operand : Expr) (items : List Expr) (negated : Bool) :
    operand.Within (.inList operand items negated) :=
  within_of_subset fun _ member => List.mem_cons_of_mem _ (List.mem_append_left _ member)

theorem within_item {item operand : Expr} {items : List Expr} (listed : item ∈ items)
    (negated : Bool) : item.Within (.inList operand items negated) := by
  refine within_of_subset fun node member => ?_
  rw [nodes, nodesEach_eq]
  exact List.mem_cons_of_mem _ (List.mem_append_right _ (List.mem_flatMap.mpr ⟨_, listed, member⟩))

theorem within_arg {arg : Expr} {args : List Expr} (listed : arg ∈ args) (name : String)
    (distinct : Bool) : arg.Within (.function name args distinct) := by
  refine within_of_subset fun node member => ?_
  rw [nodes, nodesEach_eq]
  exact List.mem_cons_of_mem _ (List.mem_flatMap.mpr ⟨_, listed, member⟩)

theorem within_window (call : Expr) (partitionBy : List Expr) (orderBy : List (SortKey Expr)) :
    call.Within (.window call partitionBy orderBy) :=
  within_of_subset fun _ member =>
    List.mem_cons_of_mem _ (List.mem_append_left _ (List.mem_append_left _ member))

theorem within_foldl_and (conditions : List Expr) (first : Expr) :
    first.Within (conditions.foldl (.binary .and) first) ∧
      ∀ condition ∈ conditions, condition.Within (conditions.foldl (.binary .and) first) := by
  induction conditions generalizing first with
  | nil => exact ⟨.refl first, nofun⟩
  | cons condition rest ih =>
    obtain ⟨start, others⟩ := ih (.binary .and first condition)
    exact ⟨(within_left _ _ _).trans start,
      List.forall_mem_cons.mpr ⟨(within_right _ _ _).trans start, others⟩⟩

theorem within_conjunction? {conditions : List Expr} (listed : x ∈ conditions) :
    ∃ e, conjunction? conditions = some e ∧ x.Within e := by
  cases conditions with
  | nil => cases listed
  | cons first rest =>
    obtain ⟨start, others⟩ := within_foldl_and rest first
    refine ⟨_, rfl, ?_⟩
    rcases List.mem_cons.mp listed with rfl | listed
    · exact start
    · exact others x listed

end Expr

/-! ## The means of the known databases -/

section
variable {database : Database} {last : Bool} {value time e : Expr}

theorem within_pick (found : database.dialect.pick last value time = some e) : value.Within e := by
  cases database <;> cases found <;> exact Expr.within_arg List.mem_cons_self _ _

theorem within_join (found : database.dialect.join value = some e) : value.Within e := by
  cases database <;> cases found
  case clickhouse =>
    exact (Expr.within_arg List.mem_cons_self _ _).trans (Expr.within_arg List.mem_cons_self _ _)
  all_goals exact Expr.within_arg List.mem_cons_self _ _

theorem within_countDistinct : value.Within (database.dialect.countDistinct value) := by
  cases database <;> exact Expr.within_arg List.mem_cons_self _ _

end

end Sql

/-! ## Writing -/

namespace Renderer
variable {r : Renderer} {e : Expr} {written left right : Sql.Expr}

theorem eq_of_isNull (null : isNull written = true) : written = .literal .null := by
  unfold isNull at null
  split at null
  · rfl
  · cases null

theorem within_of_isNull {other : Sql.Expr} (null : isNull written = true) :
    written.Within other := by
  rw [eq_of_isNull null]
  exact fun _ member => List.mem_cons.mpr (.inl (List.mem_singleton.mp member))

theorem within_combine (op : BinaryOp) (left right : Sql.Expr) :
    left.Within (combine op left right) ∧ right.Within (combine op left right) := by
  have test : ∀ (op : Sql.BinaryOp) (negated : Bool),
      left.Within (equality op negated left right) ∧
        right.Within (equality op negated left right) := by
    intro op negated
    unfold equality
    split
    · rename_i null
      exact ⟨Sql.Expr.within_isNull left negated, within_of_isNull null⟩
    · split
      · rename_i null
        exact ⟨within_of_isNull null, Sql.Expr.within_isNull right negated⟩
      · exact ⟨Sql.Expr.within_left _ _ _, Sql.Expr.within_right _ _ _⟩
  cases op with
  | eq => exact test .eq false
  | ne => exact test .ne true
  | _ => exact ⟨Sql.Expr.within_left _ _ _, Sql.Expr.within_right _ _ _⟩

theorem part_of_rowExpr (ok : rowExpr e = .ok written) :
    ∀ node ∈ e.nodes, ∃ x, rowExpr node = .ok x ∧ x.Within written := by
  refine Expr.forall_nodes ⟨written, ok, .refl written⟩ ?_
  rintro whole ⟨x, ok, within⟩ part child
  suffices inner : ∃ y, rowExpr part = .ok y ∧ y.Within x by
    obtain ⟨y, ok, inside⟩ := inner
    exact ⟨y, ok, inside.trans within⟩
  cases whole with
  | literal | column | placeholder => cases child
  | binary op left right =>
    simp only [rowExpr, bind_eq_ok, pure_eq_ok] at ok
    obtain ⟨l, okl, r, okr, rfl⟩ := ok
    obtain ⟨first, second⟩ := within_combine op l r
    simp only [Expr.children, List.mem_cons, List.not_mem_nil, or_false] at child
    rcases child with rfl | rfl
    · exact ⟨l, okl, first⟩
    · exact ⟨r, okr, second⟩
  | unary op operand =>
    simp only [rowExpr, bind_eq_ok, pure_eq_ok] at ok
    obtain ⟨y, ok, rfl⟩ := ok
    obtain rfl := List.mem_singleton.mp child
    exact ⟨y, ok, Sql.Expr.within_unary _ _⟩
  | inList operand items negated =>
    simp only [rowExpr, bind_eq_ok, pure_eq_ok, rowExprs_eq_ok] at ok
    obtain ⟨y, ok, ys, oks, rfl⟩ := ok
    rcases List.mem_cons.mp child with rfl | listed
    · exact ⟨y, ok, Sql.Expr.within_operand _ _ _⟩
    · obtain ⟨z, among, ok⟩ := related_of_mem_left oks listed
      exact ⟨z, ok, Sql.Expr.within_item among negated⟩
  | call name args =>
    simp only [rowExpr, bind_eq_ok, pure_eq_ok, rowExprs_eq_ok] at ok
    obtain ⟨ys, oks, rfl⟩ := ok
    obtain ⟨z, among, ok⟩ := related_of_mem_left oks child
    exact ⟨z, ok, Sql.Expr.within_arg among name false⟩

theorem part_of_groupExpr {reference : Reference → Except CompileError Sql.Expr} {e : GroupExpr}
    (ok : groupExpr reference e = .ok written) :
    ∀ node ∈ e.nodes, ∃ x, groupExpr reference node = .ok x ∧ x.Within written := by
  refine GroupExpr.forall_nodes ⟨written, ok, .refl written⟩ ?_
  rintro whole ⟨x, ok, within⟩ part child
  suffices inner : ∃ y, groupExpr reference part = .ok y ∧ y.Within x by
    obtain ⟨y, ok, inside⟩ := inner
    exact ⟨y, ok, inside.trans within⟩
  cases whole with
  | reference | literal => cases child
  | binary op left right =>
    simp only [groupExpr, bind_eq_ok, pure_eq_ok] at ok
    obtain ⟨l, okl, r, okr, rfl⟩ := ok
    obtain ⟨first, second⟩ := within_combine op l r
    simp only [GroupExpr.children, List.mem_cons, List.not_mem_nil, or_false] at child
    rcases child with rfl | rfl
    · exact ⟨l, okl, first⟩
    · exact ⟨r, okr, second⟩
  | unary op operand =>
    simp only [groupExpr, bind_eq_ok, pure_eq_ok] at ok
    obtain ⟨y, ok, rfl⟩ := ok
    obtain rfl := List.mem_singleton.mp child
    exact ⟨y, ok, Sql.Expr.within_unary _ _⟩
  | inList operand items negated =>
    simp only [groupExpr, bind_eq_ok, pure_eq_ok, groupExprs_eq_ok] at ok
    obtain ⟨y, ok, ys, oks, rfl⟩ := ok
    rcases List.mem_cons.mp child with rfl | listed
    · exact ⟨y, ok, Sql.Expr.within_operand _ _ _⟩
    · obtain ⟨z, among, ok⟩ := related_of_mem_left oks listed
      exact ⟨z, ok, Sql.Expr.within_item among negated⟩
  | call name args =>
    simp only [groupExpr, bind_eq_ok, pure_eq_ok, groupExprs_eq_ok] at ok
    obtain ⟨ys, oks, rfl⟩ := ok
    obtain ⟨z, among, ok⟩ := related_of_mem_left oks child
    exact ⟨z, ok, Sql.Expr.within_arg among name false⟩

/-- What is written has all of its references written. -/
theorem reference_of_groupExpr {reference : Reference → Except CompileError Sql.Expr}
    {e : GroupExpr} (ok : groupExpr reference e = .ok written) {target : Reference}
    (member : target ∈ e.references) : ∃ x, reference target = .ok x ∧ x.Within written := by
  obtain ⟨node, inside, is⟩ := List.mem_filterMap.mp member
  cases node with
  | reference other =>
    obtain rfl := Option.some.inj is
    exact part_of_groupExpr ok _ inside
  | _ => cases is

section
variable {database : Sql.Database} (dialect : r.dialect = database.dialect) {call : AggregateCall}
  {arg : Expr} (given : call.arg = some arg)
include given

include dialect in
theorem arg_of_aggregate (ok : r.aggregate call = .ok written) :
    ∃ value, rowExpr arg = .ok value ∧ value.Within written := by
  unfold aggregate at ok
  rw [given] at ok
  obtain ⟨value, row, ok⟩ := bind_eq_ok.mp ok
  refine ⟨value, row, ?_⟩
  have single : ∀ name, value.Within (.apply name [value]) :=
    fun name => Sql.Expr.within_arg List.mem_cons_self name false
  unfold aggregateOf at ok
  rw [dialect] at ok
  split at ok
  case h_6 =>
    cases ok
    exact Sql.within_countDistinct
  case h_7 => exact Sql.within_join (capability_eq_ok.mp ok)
  case h_8 =>
    split at ok
    · cases ok
      exact (single "sum").trans (Sql.Expr.within_left _ _ _)
    · cases ok
  case h_9 | h_10 => exact Sql.within_pick (capability_eq_ok.mp ok)
  all_goals
    cases ok
    exact single _

theorem arg_of_windowCall {partitionBy : List Sql.Expr}
    (ok : r.windowCall call partitionBy = .ok written) :
    ∃ value, rowExpr arg = .ok value ∧ value.Within written := by
  unfold windowCall at ok
  rw [given] at ok
  obtain ⟨value, row, rfl⟩ := bind_pure_eq_ok.mp ok
  exact ⟨value, row,
    (Sql.Expr.within_arg List.mem_cons_self _ _).trans (Sql.Expr.within_window _ _ _)⟩

end

end Renderer

/-! ## Stages -/

namespace Stage
variable {stage : Stage} {x y : Sql.Expr}

/-- What a stage computes and what it tests. -/
def clauses (stage : Stage) : List Sql.Expr :=
  stage.fields.map (·.expr) ++ stage.filter.toList ++ stage.having.toList

/-- An expression is written in a clause of a stage. -/
def Writes (stage : Stage) (x : Sql.Expr) : Prop := ∃ e ∈ stage.clauses, x.Within e

theorem Writes.part (writes : stage.Writes x) (within : y.Within x) : stage.Writes y := by
  obtain ⟨e, member, inside⟩ := writes
  exact ⟨e, member, within.trans inside⟩

theorem writes_field {name : String} (member : ⟨name, x⟩ ∈ stage.fields) : stage.Writes x := by
  refine ⟨x, ?_, .refl x⟩
  have listed : x ∈ stage.fields.map (·.expr) := List.mem_map_of_mem (f := Field.expr) member
  exact List.mem_append_left _ (List.mem_append_left _ listed)

theorem writes_filter (tested : stage.filter = some x) : stage.Writes x :=
  ⟨x, by simp [clauses, tested], .refl x⟩

theorem writes_having (tested : stage.having = some x) : stage.Writes x :=
  ⟨x, by simp [clauses, tested], .refl x⟩

end Stage

end Rollup
