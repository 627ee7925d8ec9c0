import Rollup.Proofs.Compile.Termination
import Rollup.Proofs.Expr.Equality

/-! The parts of an expression go where it goes.

A pass that rebuilds expressions is looked at one node at a time: the operands of a rebuilt
expression are those of the old one, rebuilt. In this way resolution keeps the parts of an
expression, and of every definition that it opens, and so does the aggregation of metrics outside of
aggregates.
-/

set_option autoImplicit false

namespace Rollup

namespace Expr
variable {e x node : Expr}

/-! ## Inside and outside of aggregates -/

variable {registry : Registry}

/-- A part of an expression is outside of all aggregates, or in an argument of one that is. -/
theorem outside_or_argument (registry : Registry) (member : node ∈ e.nodes) :
    node ∈ e.outside registry ∨ ∃ name args arg, .call name args ∈ e.outside registry ∧
      registry.isAggregate name = true ∧ arg ∈ args ∧ node ∈ arg.nodes := by
  refine forall_nodes (P := fun node => node ∈ e.outside registry ∨
    ∃ name args arg, .call name args ∈ e.outside registry ∧ registry.isAggregate name = true ∧
      arg ∈ args ∧ node ∈ arg.nodes) (.inl self_mem_walk) ?_ node member
  rintro whole (out | ⟨name, args, arg, called, aggregate, listed, within⟩) part child
  · by_cases entered : whole.isAggregateCall registry = true
    · cases whole with
      | call name args => exact .inr ⟨name, args, part, out, entered, child, self_mem_nodes part⟩
      | _ => cases entered
    · exact .inl (child_mem_walk out (by simpa using entered) child)
  · exact .inr ⟨name, args, arg, called, aggregate, listed, child_mem_nodes within child⟩

/-! ## Equal expressions -/

theorem children_of_same (equal : e.same x = true) :
    List.Forall₂ (fun a b => a.same b = true) e.children x.children := by
  cases same_iff.mp equal with
  | literal | column | placeholder => exact .nil
  | binary first second => exact .cons (same_iff.mpr first) (.cons (same_iff.mpr second) .nil)
  | unary inner => exact .cons (same_iff.mpr inner) .nil
  | inList inner each => exact .cons (same_iff.mpr inner) (each.imp fun _ _ => same_iff.mpr)
  | call each => exact each.imp fun _ _ => same_iff.mpr

theorem part_of_same (equal : e.same x = true) :
    ∀ node ∈ x.nodes, ∃ part ∈ e.nodes, part.same node = true := by
  refine forall_nodes ⟨e, self_mem_nodes e, equal⟩ ?_
  rintro whole ⟨y, within, equal⟩ part child
  obtain ⟨z, listed, equal⟩ := related_of_mem_right (children_of_same equal) child
  exact ⟨z, child_mem_nodes within listed, equal⟩

/-! ## Rebuilding -/

theorem children_of_transformM {ε : Type} {f : Expr → Except ε Expr}
    (other : ∀ e : Expr, e.isName = false → f e = .ok e) (is : e.isName = false)
    (ok : e.transformM f = .ok x) :
    List.Forall₂ (fun part y => part.transformM f = .ok y) e.children x.children := by
  obtain ⟨es, oks, rfl⟩ := (transformM_eq_ok other is).mp ok
  rwa [children_withOperands oks.length_eq.symm]

theorem part_of_transformM {ε : Type} {f : Expr → Except ε Expr}
    (other : ∀ e : Expr, e.isName = false → f e = .ok e) (ok : e.transformM f = .ok x) :
    ∀ node ∈ e.nodes, ∃ y ∈ x.nodes, node.transformM f = .ok y := by
  refine forall_nodes ⟨x, self_mem_nodes x, ok⟩ ?_
  rintro whole ⟨y, within, ok⟩ part child
  have is : whole.isName = false := by cases whole <;> first | rfl | cases child
  obtain ⟨z, listed, ok⟩ := related_of_mem_left (children_of_transformM other is ok) child
  exact ⟨z, child_mem_nodes within listed, ok⟩

end Expr

namespace Resolver
variable {r : Resolver} {e part x : Expr} {stack stack' : List String}

/-! ## Resolution -/

theorem part_of_inline (ok : r.inline e = .ok x) :
    ∀ node ∈ e.nodes, ∃ y ∈ x.nodes, r.inline node = .ok y := by
  simp only [inline, inlineWithin_eq] at ok ⊢
  exact Expr.part_of_transformM (fun _ => inlineNode_other) ok

/-- What can be resolved while columns are being defined has the same result where fewer are. -/
theorem Inlines.of_subset {result : Except CompileError Expr} (inlines : r.Inlines stack e result)
    (ok : result = .ok x) (fewer : stack' ⊆ stack) : r.Inlines stack' e result := by
  induction inlines generalizing x stack' with
  | placeholder => exact .placeholder
  | unknown _ => cases ok
  | stored stored => exact .stored stored
  | cycle _ _ => cases ok
  | derived found fresh _ ih =>
    refine .derived found (fun again => fresh (fewer again)) (ih ok ?_)
    exact List.append_subset.mpr
      ⟨List.Subset.trans fewer (List.subset_append_left _ _), List.subset_append_right _ _⟩
  | rewrite f other kept _ ih =>
    refine .rewrite f other kept fun node member is => ?_
    obtain ⟨y, replaced⟩ := Expr.replaced_of_transformM ok member is
    exact ih node member is replaced fewer

theorem inline_definition {name : String} {column : DerivedColumn}
    (found : r.schema.column? name = some (.derived column))
    (ok : r.inline (.column name) = .ok x) : r.inline column.expr = .ok x := by
  have inlines := inlines_iff.mpr ok.symm
  generalize given : Except.ok x = result at inlines
  generalize named : Expr.column name = e at inlines
  cases inlines with
  | placeholder => cases named
  | unknown _ => cases given
  | stored stored =>
    cases named
    rw [Schema.isStored, found] at stored
    cases stored
  | cycle _ again => cases again
  | derived found' _ inlines =>
    cases named
    cases found.symm.trans found'
    exact given ▸ (inlines_iff.mp (inlines.of_subset given.symm (List.nil_subset _))).symm
  | rewrite _ other _ _ =>
    cases named
    cases other

/-- An expression reaches its parts, and what is reached by the definitions that it names. -/
inductive Reaches (r : Resolver) : Expr → Expr → Prop
  | part {e part : Expr} : part ∈ e.nodes → Reaches r e part
  | definition {e part : Expr} {name : String} {column : DerivedColumn} : name ∈ e.columns →
      r.schema.column? name = some (.derived column) → Reaches r column.expr part →
        Reaches r e part

theorem Reaches.inlined (reaches : r.Reaches e part) (ok : r.inline e = .ok x) :
    ∃ y ∈ x.nodes, r.inline part = .ok y := by
  induction reaches generalizing x with
  | part member => exact part_of_inline ok _ member
  | definition named found _ ih =>
    obtain ⟨y, within, ok⟩ := part_of_inline ok _ (Expr.mem_columns.mp named)
    obtain ⟨z, inside, ok⟩ := ih (inline_definition found ok)
    exact ⟨z, Expr.nodes_subset within inside, ok⟩

theorem inline_binary {op : BinaryOp} {left right : Expr} :
    r.inline (.binary op left right) = .ok x ↔ ∃ left' right', r.inline left = .ok left' ∧
      r.inline right = .ok right' ∧ x = .binary op left' right' := by
  simp only [inline, inlineWithin_eq, Expr.transformM, bind_eq_ok,
    inlineNode_other (e := .binary op _ _) rfl, Except.ok.injEq, exists_and_left, eq_comm (a := x)]

/-! ## Aggregated metrics -/

inductive Aggregated (r : Resolver) : Expr → Expr → Prop
  | aggregate {e : Expr} : e.isAggregateCall r.registry = true → Aggregated r e e
  | metric {name : String} {metric : Metric} : r.schema.metric? name = some metric →
      Aggregated r (.column name) (.call metric.aggregator.name [.column name])
  | other {e x : Expr} : e.isAggregateCall r.registry = false →
      x.isAggregateCall r.registry = false → x.children = e.children.map r.aggregateMetrics →
        Aggregated r e x

theorem aggregated_aggregateMetrics (r : Resolver) (e : Expr) :
    r.Aggregated e (r.aggregateMetrics e) := by
  cases e with
  | literal | placeholder => exact .other rfl rfl rfl
  | column name =>
    rw [aggregateMetrics]
    split
    · rename_i metric found
      exact .metric found
    · exact .other rfl rfl rfl
  | binary op left right =>
    rw [aggregateMetrics]
    exact .other rfl rfl rfl
  | unary op operand =>
    rw [aggregateMetrics]
    exact .other rfl rfl rfl
  | inList operand items negated =>
    rw [aggregateMetrics, aggregateMetricsEach_eq]
    exact .other rfl rfl rfl
  | call name args =>
    rw [aggregateMetrics, aggregateMetricsEach_eq]
    split
    · rename_i aggregate
      exact .aggregate aggregate
    · rename_i scalar
      exact .other (Bool.eq_false_iff.mpr scalar) (Bool.eq_false_iff.mpr scalar) rfl

theorem children_aggregateMetrics (plain : e.isAggregateCall r.registry = false)
    (child : part ∈ e.children) :
    (r.aggregateMetrics e).isAggregateCall r.registry = false ∧
      r.aggregateMetrics part ∈ (r.aggregateMetrics e).children := by
  have made := r.aggregated_aggregateMetrics e
  generalize r.aggregateMetrics e = x at made
  cases made with
  | aggregate is => cases is.symm.trans plain
  | metric found => cases child
  | other _ scalar children => exact ⟨scalar, children ▸ List.mem_map_of_mem child⟩

theorem outside_aggregateMetrics : ∀ node ∈ e.outside r.registry,
    r.aggregateMetrics node ∈ (r.aggregateMetrics e).outside r.registry := by
  refine Expr.forall_walk Expr.self_mem_walk fun whole met enters part child => ?_
  obtain ⟨plain, listed⟩ := children_aggregateMetrics (by simpa using enters) child
  exact Expr.child_mem_walk met (by simp [plain]) listed

theorem aggregateMetrics_of_isAggregate {name : String} {args : List Expr}
    (is : r.registry.isAggregate name = true) :
    r.aggregateMetrics (.call name args) = .call name args := by
  rw [aggregateMetrics, if_pos is]

end Resolver

end Rollup
