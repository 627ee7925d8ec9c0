import Rollup.Proofs.Compile.Part
import Rollup.Proofs.Expr.Position
import Rollup.Proofs.Group.Occurrence

/-! The default aggregates of metrics.

When metrics outside of aggregates get their own aggregates, every position keeps what is there,
except that such a metric moves one step down, into its aggregate. So each metric is in one
aggregate afterwards, and none is left outside that would have to be a key.
-/

set_option autoImplicit false

namespace Rollup

namespace Expr

/-- The number of aggregates around a position. -/
def aggregatesAround (registry : Registry) : Expr → List Nat → Nat
  | _, [] => 0
  | e, index :: path =>
    (if e.isAggregateCall registry then 1 else 0) +
      e.children[index]?.elim 0 fun part => part.aggregatesAround registry path

variable {registry : Registry} {e part node : Expr} {index : Nat} {path : List Nat}

theorem aggregatesAround_cons (child : e.children[index]? = some part) :
    e.aggregatesAround registry (index :: path) =
      (if e.isAggregateCall registry then 1 else 0) + part.aggregatesAround registry path := by
  rw [aggregatesAround, child, Option.elim_some]

/-! ## Expressions without nested aggregates -/

theorem isAggregateCall_of_aggregates_nil (none : e.aggregates registry = [])
    (member : node ∈ e.nodes) : node.isAggregateCall registry = false := by
  cases node with
  | call name args =>
    have called : name ∈ e.calls := mem_calls.mpr ⟨args, member⟩
    exact isAggregate_of_aggregate?_none (List.filterMap_eq_nil_iff.mp none name called)
  | _ => rfl

theorem aggregatesAround_eq_zero (plain : ∀ inner ∈ e.nodes, inner.isAggregateCall registry = false)
    (found : e.at? path = some node) : e.aggregatesAround registry path = 0 := by
  induction path generalizing e with
  | nil => rfl
  | cons index path ih =>
    obtain ⟨part, child, found⟩ := at?_cons.mp found
    have below := ih (fun inner member => plain inner (nodes_child_subset child member)) found
    rw [aggregatesAround_cons child, plain e (self_mem_nodes e), if_neg Bool.false_ne_true, below]

theorem IsUnnested.aggregatesAround_le (unnested : e.IsUnnested registry)
    (found : e.at? path = some node) :
    e.aggregatesAround registry path + (if node.isAggregateCall registry then 1 else 0) ≤ 1 := by
  induction path generalizing e with
  | nil =>
    rw [aggregatesAround]
    split <;> decide
  | cons index path ih =>
    obtain ⟨part, child, found⟩ := at?_cons.mp found
    rw [aggregatesAround_cons child]
    split
    · rename_i aggregate
      -- The operands of an aggregate call none.
      have none : part.aggregates registry = [] := by
        cases e with
        | call name args =>
          exact List.flatMap_eq_nil_iff.mp (unnested name args (self_mem_nodes _) aggregate) part
            (List.mem_of_getElem? child)
        | _ => cases aggregate
      have plain : ∀ inner ∈ part.nodes, inner.isAggregateCall registry = false :=
        fun _ => isAggregateCall_of_aggregates_nil none
      rw [aggregatesAround_eq_zero plain found, plain node (mem_nodes_of_at? found)]
      decide
    · rw [Nat.zero_add]
      exact ih (unnested.part (nodes_child_subset child)) found

end Expr

namespace Resolver
variable {r : Resolver} {e x node : Expr} {path : List Nat} {name : String}

/-! ## Positions -/

/-- Outside of aggregates metrics are aggregated at every position, and inside nothing changes. -/
theorem at?_aggregateMetrics (found : e.at? path = some node) :
    (r.aggregateMetrics e).at? path =
      some (if e.aggregatesAround r.registry path = 0 then r.aggregateMetrics node else node) := by
  induction path generalizing e with
  | nil =>
    cases found
    rfl
  | cons index path ih =>
    obtain ⟨part, child, inner⟩ := Expr.at?_cons.mp found
    rw [Expr.aggregatesAround_cons child]
    have made := r.aggregated_aggregateMetrics e
    generalize r.aggregateMetrics e = x at made
    cases made with
    | aggregate is => rw [is, if_pos rfl, if_neg (by omega), found]
    | metric => cases child
    | other plain _ children =>
      rw [plain, if_neg Bool.false_ne_true, Nat.zero_add, ← ih inner]
      rw [Expr.at?, children, List.getElem?_map, child, Option.map_some, Option.bind_some]

/-- What is at a position after metrics have been aggregated, and in how many aggregates. -/
inductive Origin (r : Resolver) (e : Expr) : List Nat → Nat → Expr → Prop
  | outside {path : List Nat} {node : Expr} : e.at? path = some node →
      e.aggregatesAround r.registry path = 0 → Origin r e path 0 (r.aggregateMetrics node)
  | inside {path : List Nat} {node : Expr} : e.at? path = some node →
      0 < e.aggregatesAround r.registry path →
      Origin r e path (e.aggregatesAround r.registry path) node
  | argument {path : List Nat} {name : String} {metric : Metric} :
      e.at? path = some (.column name) → e.aggregatesAround r.registry path = 0 →
      r.schema.metric? name = some metric → Origin r e (path ++ [0]) 1 (.column name)

theorem Origin.below {part : Expr} {index count : Nat} (origin : r.Origin part path count node)
    (plain : e.isAggregateCall r.registry = false) (child : e.children[index]? = some part) :
    r.Origin e (index :: path) count node := by
  have around : ∀ path, e.aggregatesAround r.registry (index :: path) =
      part.aggregatesAround r.registry path := by
    intro path
    rw [Expr.aggregatesAround_cons child, plain, if_neg Bool.false_ne_true, Nat.zero_add]
  have at_ : ∀ {path node}, part.at? path = some node → e.at? (index :: path) = some node :=
    fun found => Expr.at?_cons.mpr ⟨part, child, found⟩
  cases origin with
  | outside found none => exact .outside (at_ found) ((around _).trans none)
  | inside found some_ =>
    rw [← around] at some_ ⊢
    exact .inside (at_ found) some_
  | argument found none metric => exact .argument (at_ found) ((around _).trans none) metric

section
variable (known : ∀ func : Aggregate, r.registry.isAggregate func.name = true)
include known

theorem origin_aggregateMetrics (found : (r.aggregateMetrics e).at? path = some node) :
    r.Origin e path ((r.aggregateMetrics e).aggregatesAround r.registry path) node := by
  induction path generalizing e with
  | nil =>
    cases found
    exact .outside rfl rfl
  | cons index path ih =>
    obtain ⟨part, child, inner⟩ := Expr.at?_cons.mp found
    rw [Expr.aggregatesAround_cons child]
    have made := r.aggregated_aggregateMetrics e
    generalize r.aggregateMetrics e = x at made found child
    cases made with
    | aggregate is =>
      rw [← Expr.aggregatesAround_cons child]
      refine .inside found ?_
      rw [Expr.aggregatesAround_cons child, is, if_pos rfl]
      omega
    | @metric name metric is =>
      -- The only operand of the new aggregate is the metric, which has no operands.
      cases index with
      | succ index => cases child
      | zero =>
        obtain rfl := Option.some.inj child
        cases path with
        | cons index path =>
          obtain ⟨_, below, -⟩ := Expr.at?_cons.mp inner
          cases below
        | nil =>
          obtain rfl := Option.some.inj inner
          rw [Expr.isAggregateCall, known, if_pos rfl]
          exact @Origin.argument r _ [] _ _ rfl rfl is
    | other plain scalar children =>
      rw [scalar, if_neg Bool.false_ne_true, Nat.zero_add]
      rw [children, List.getElem?_map] at child
      obtain ⟨origin, among, rfl⟩ := Option.map_eq_some_iff.mp child
      exact (ih inner).below plain among

theorem aggregateMetrics_aggregateMetrics (e : Expr) :
    r.aggregateMetrics (r.aggregateMetrics e) = r.aggregateMetrics e := by
  have each : ∀ {es : List Expr},
      (∀ e ∈ es, r.aggregateMetrics (r.aggregateMetrics e) = r.aggregateMetrics e) →
      (es.map r.aggregateMetrics).map r.aggregateMetrics = es.map r.aggregateMetrics := by
    intro es one
    rw [List.map_map]
    exact List.map_congr_left one
  induction e with
  | literal value => rfl
  | placeholder name => rfl
  | column name =>
    rw [aggregateMetrics]
    split
    · exact aggregateMetrics_of_isAggregate (known _)
    · rename_i absent
      rw [aggregateMetrics, absent]
  | binary op left right ihl ihr => simp only [aggregateMetrics, ihl, ihr]
  | unary op operand ih => simp only [aggregateMetrics, ih]
  | inList operand items negated ih ihs =>
    simp only [aggregateMetrics, aggregateMetricsEach_eq, ih, each ihs]
  | call function args ihs =>
    rw [aggregateMetrics]
    split
    · rename_i aggregate
      exact aggregateMetrics_of_isAggregate aggregate
    · rename_i scalar
      rw [aggregateMetrics, if_neg scalar, aggregateMetricsEach_eq, aggregateMetricsEach_eq,
        each ihs]

/-! ## Outside of aggregates -/

theorem origin_outside : ∀ node ∈ (r.aggregateMetrics e).outside r.registry,
    ∃ origin, node = r.aggregateMetrics origin := by
  refine Expr.forall_walk ⟨e, rfl⟩ ?_
  rintro _ ⟨origin, rfl⟩ enters part child
  have made := r.aggregated_aggregateMetrics origin
  generalize r.aggregateMetrics origin = x at made enters child
  cases made with
  | aggregate is => simp [is] at enters
  | metric => simp [Expr.isAggregateCall, known] at enters
  | other _ _ children =>
    rw [children] at child
    obtain ⟨inner, -, rfl⟩ := List.mem_map.mp child
    exact ⟨inner, rfl⟩

theorem failsOnly_lift_aggregateMetrics {keys : List GroupKey} {metric : Metric}
    (is : r.schema.metric? name = some metric) :
    RunFailsOnly (fun fault => ∀ text, fault ≠ .ungroupedColumn text name)
      (lift r.registry (keyReference keys (r.aggregateMetrics e)) (r.aggregateMetrics e)) := by
  refine failsOnly_lift _ (fun column out => ?_) fun _ _ _ => nofun
  obtain ⟨origin, same⟩ := origin_outside known _ out
  have other := (column_of_aggregateMetrics same.symm).2
  rw [keyReference]
  split
  · exact .ok _
  · refine .error fun text same => ?_
    cases same
    cases is.symm.trans other

end

/-! ## Resolved expressions -/

/-- What becomes of the columns and aggregates of an expression. -/
structure Covers (r : Resolver) (e x : Expr) : Prop where
  /-- A metric is in one aggregate. -/
  metric {path : List Nat} {name : String} {metric : Metric} :
    x.at? path = some (.column name) → r.schema.metric? name = some metric →
      x.aggregatesAround r.registry path = 1
  bare {path : List Nat} {name : String} {metric : Metric} :
    e.at? path = some (.column name) → r.schema.metric? name = some metric →
      e.aggregatesAround r.registry path = 0 →
        x.at? path = some (.call metric.aggregator.name [.column name])
  column {path : List Nat} {name : String} :
    e.at? path = some (.column name) → r.schema.metric? name = none →
      x.at? path = some (.column name)
  aggregate {path : List Nat} {name : String} {args : List Expr} :
    e.at? path = some (.call name args) → r.registry.isAggregate name = true →
      x.at? path = some (.call name args)
  /-- There are no other aggregates. -/
  origin {path : List Nat} {name : String} {args : List Expr} :
    x.at? path = some (.call name args) → r.registry.isAggregate name = true →
      e.at? path = some (.call name args) ∨
        ∃ column metric, e.at? path = some (.column column) ∧
          e.aggregatesAround r.registry path = 0 ∧ r.schema.metric? column = some metric ∧
            name = metric.aggregator.name ∧ args = [.column column]
  unnested {path : List Nat} {name : String} {args : List Expr} :
    x.at? path = some (.call name args) → r.registry.isAggregate name = true →
      x.aggregatesAround r.registry path = 0

theorem covers_aggregateMetrics
    (known : ∀ func : Aggregate, r.registry.isAggregate func.name = true)
    (unnested : e.IsUnnested r.registry) : r.Covers e (r.aggregateMetrics e) where
  metric {path name metric} found is := by
    have origin := origin_aggregateMetrics known found
    generalize (r.aggregateMetrics e).aggregatesAround r.registry path = count at origin
    generalize same : Expr.column name = node at origin
    cases origin with
    | outside =>
      cases is.symm.trans (column_of_aggregateMetrics same.symm).2
    | inside found some_ =>
      have atMost := unnested.aggregatesAround_le found
      omega
    | argument => rfl
  bare {path name metric} found is none := by
    rw [at?_aggregateMetrics found, if_pos none, aggregateMetrics, is]
  column {path name} found absent := by
    rw [at?_aggregateMetrics found, aggregateMetrics, absent, ite_self]
  aggregate {path name args} found is := by
    rw [at?_aggregateMetrics found, aggregateMetrics_of_isAggregate is, ite_self]
  origin {path name args} found is := by
    have origin := origin_aggregateMetrics known found
    generalize (r.aggregateMetrics e).aggregatesAround r.registry path = count at origin
    generalize same : Expr.call name args = node at origin
    cases origin with
    | outside place none =>
      rcases call_of_aggregateMetrics same.symm with
        rfl | ⟨column, metric, rfl, listed, called⟩ | ⟨scalar, -⟩
      · exact .inl (place.trans (congrArg some same))
      · exact .inr ⟨column, metric, place, none, listed, called⟩
      · cases is.symm.trans scalar
    | inside place _ => exact .inl place
    | argument => cases same
  unnested {path name args} found is := by
    have atMost := (isUnnested_aggregateMetrics unnested).aggregatesAround_le found
    rw [Expr.isAggregateCall, is, if_pos rfl] at atMost
    omega

/-- The default aggregates of a resolved expression cover its metrics, once and for all. -/
theorem covers_of_resolve {source : Expr} (builtin : r.registry = .builtin)
    (ok : r.resolve source = .ok e) :
    r.Covers e (r.aggregateMetrics e) ∧
      r.aggregateMetrics (r.aggregateMetrics e) = r.aggregateMetrics e ∧
      ∀ keys calls text name metric, r.schema.metric? name = some metric →
        (lift r.registry (keyReference keys (r.aggregateMetrics e)) (r.aggregateMetrics e)).run
          calls ≠ .error (.ungroupedColumn text name) := by
  have known : ∀ func : Aggregate, r.registry.isAggregate func.name = true :=
    fun func => builtin ▸ isAggregate_builtin func
  refine ⟨covers_aggregateMetrics known (isFlat_resolve ok).isUnnested,
    aggregateMetrics_aggregateMetrics known e, ?_⟩
  intro keys calls text name metric is failed
  exact failsOnly_lift_aggregateMetrics known is calls _ failed text rfl

theorem covers_of_resolve_entangled :
    ∃ e, resolve ⟨.entangled, .builtin, some 60⟩ (.binary .add (.column "pace") (.column "cpu")) =
        .ok e ∧
      (aggregateMetrics ⟨.entangled, .builtin, some 60⟩ e).render = "sum(cpu) / 60 + avg(cpu)" ∧
      Covers ⟨.entangled, .builtin, some 60⟩ e
        (aggregateMetrics ⟨.entangled, .builtin, some 60⟩ e) := by
  have written : (resolve ⟨.entangled, .builtin, some 60⟩
      (.binary .add (.column "pace") (.column "cpu"))).toOption.map (fun e =>
        (aggregateMetrics ⟨.entangled, .builtin, some 60⟩ e).render) =
          some "sum(cpu) / 60 + avg(cpu)" := by decide +kernel
  obtain ⟨e, found, text⟩ := Option.map_eq_some_iff.mp written
  have ok := toOption_eq_some.mp found
  exact ⟨e, ok, text, (covers_of_resolve rfl ok).1⟩

end Resolver

end Rollup
