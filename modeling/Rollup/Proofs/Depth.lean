import Rollup.Proofs.Compile.Bucket
import Rollup.Proofs.Compiler

/-! How many stages a plan has.

One stage is always there. There is one more for window functions, if an aggregate of the selectors
or of the filter is one, and one more for what is computed from aggregates by the selectors, or
selected beside window functions. Nothing else in a query makes a difference.
-/

set_option autoImplicit false

namespace Rollup

def Layout.depth : Layout → Nat
  | .flat => 1
  | .computed | .windowed => 2
  | .windowedComputed => 3

theorem Layout.depth_choose (hasWindow hasComputed selectsAggregate : Bool) :
    (choose hasWindow hasComputed selectsAggregate).depth =
      1 + hasWindow.toNat + (hasComputed || hasWindow && selectsAggregate).toNat := by
  cases hasWindow <;> cases hasComputed <;> cases selectsAggregate <;> rfl

theorem StageBuilder.Built.depth {b : StageBuilder} {layout : Layout} {stages : List Stage}
    (built : b.Built layout stages) (orderBy : List (Sql.SortKey Sql.Expr))
    (rows : Option Sql.RowWindow) :
    Plan.depth ⟨Compiler.finish orderBy rows stages⟩ = layout.depth := by
  cases built <;> rfl

theorem any_of_related {α β : Type} {R : α → β → Prop} {as : List α} {bs : List β} {p : α → Bool}
    {q : β → Bool} (related : List.Forall₂ R as bs) (each : ∀ a b, R a b → q b = p a) :
    bs.any q = as.any p := by
  induction related with
  | nil => rfl
  | cons head _ ih => rw [List.any_cons, List.any_cons, each _ _ head, ih]

namespace Compiler

def isWindow (c : Compiler) (func : Aggregate) : Bool := func.picksByTime && c.dialect.windowed func

/-- How a query is resolved: the length of its buckets, its selectors with their metrics aggregated,
and what its filter is read in. -/
structure Resolves (c : Compiler) (query : Query) (seconds : Option Int)
    (selected : List Selected) (a : Analysis) : Prop where
  bucket : bucketSeconds query = .ok seconds
  selects : query.selectors.mapM (select ⟨c.schema, c.registry, seconds⟩) = .ok selected
  analyzed : c.analyze query ⟨c.schema, c.registry, seconds⟩ = .ok a

def filterAggregates (c : Compiler) (query : Query) (seconds : Option Int) (a : Analysis) :
    List Aggregate :=
  query.conjuncts.flatMap (c.filterScope seconds a.keys a.outputs).aggregatesIn

/-- Whether a selector or the filter calls a window function. -/
def callsWindow (c : Compiler) (query : Query) (seconds : Option Int) (selected : List Selected)
    (a : Analysis) : Bool :=
  (selected.flatMap (·.expr.aggregates c.registry) ++ c.filterAggregates query seconds a).any
    c.isWindow

/-- Whether something is left to be computed behind the groups: a selector contains an aggregate
without being just that aggregate, or it contains one that is no window function beside those that
are. -/
def computesLast (c : Compiler) (window : Bool) (selected : List Selected) : Bool :=
  selected.any (·.expr.isComputed c.registry) ||
    window && selected.any fun one => (one.expr.aggregates c.registry).any (!c.isWindow ·)

variable {c : Compiler} {query : Query} {seconds : Option Int} {selected : List Selected}
  {a : Analysis} {plan : Plan}

theorem isUnnested_select {r : Resolver} {selector : Selector} {one : Selected}
    (ok : select r selector = .ok one) : one.expr.IsUnnested r.registry := by
  obtain ⟨-, e, resolved, same⟩ := select_eq_ok ok
  rw [same]
  exact Resolver.isUnnested_aggregateMetrics (Resolver.isFlat_resolve resolved).isUnnested

/-- An output refers to the aggregates of its selector, and it is computed if the selector is. -/
structure Occurs (c : Compiler) (calls : List AggregateCall) (one : Selected) (output : Output) :
    Prop where
  places : output.expr.aggregates.map (functionAt? calls) =
    (one.expr.aggregates c.registry).map some
  computed : output.isComputed = one.expr.isComputed c.registry

theorem occurs_analyze (resolves : c.Resolves query seconds selected a) :
    List.Forall₂ (c.Occurs a.calls) selected a.outputs ∧
      ∀ func, func ∈ a.calls.map (·.func) ↔
        func ∈ selected.flatMap (·.expr.aggregates c.registry) ++
          c.filterAggregates query seconds a := by
  have analyzed := resolves.analyzed
  obtain ⟨s, selects, keys, outputs, -, tests⟩ := analyze_eq_ok analyzed
  simp only [selection, bind_eq_ok, pure_eq_ok] at selects
  obtain ⟨others, selects, keys', -, ⟨lifted, calls⟩, lifts, names, -, rfl⟩ := selects
  obtain rfl := Except.ok.inj (selects.symm.trans resolves.selects)
  have runs := mapM_run_eq_ok.mp lifts
  have unnested : ∀ one ∈ others, one.expr.IsUnnested c.registry := by
    intro one listed
    obtain ⟨selector, -, ok⟩ := related_of_mem_right (mapM_eq_ok.mp selects) listed
    exact isUnnested_select ok
  -- The outputs are lifted first, and what is added for the filter leaves their places as they are.
  have first : Adds [] (lifted.flatMap (·.expr.aggregates))
      (others.flatMap (·.expr.aggregates c.registry)) calls :=
    .of_runs runs fun one listed output u v ok => adds_liftOutput ok (unnested one listed)
  obtain ⟨-, each⟩ := runs.grows (R := (· <+: ·)) (G := c.Occurs) (fun _ => List.prefix_rfl)
    (fun _ _ _ => List.IsPrefix.trans)
    (fun u v one output kept occurs => ⟨Adds.places_of_prefix kept occurs.places, occurs.computed⟩)
    fun one listed output u v ok => by
      have adds := adds_liftOutput ok (unnested one listed)
      exact ⟨adds.kept, adds.places, isComputed_liftOutput ok (unnested one listed)⟩
  obtain ⟨places, second⟩ := Adds.exists_of_runs (runs_conditions tests)
    fun conjunct _ condition u v ok => FilterScope.adds_liftCondition ok
  refine ⟨?_, fun func => ?_⟩
  · rw [outputs]
    exact each.imp fun one output occurs =>
      ⟨Adds.places_of_prefix second.kept occurs.places, occurs.computed⟩
  · rw [filterAggregates, keys, outputs, second.called, first.called, List.mem_append]
    simp

theorem any_windowed (resolves : c.Resolves query seconds selected a) :
    (c.slots a.calls).any (·.windowed) = c.callsWindow query seconds selected a := by
  have called : (c.slots a.calls).any (·.windowed) = (a.calls.map (·.func)).any c.isWindow := by
    rw [slots, List.any_map, List.any_map]
    rfl
  rw [called, callsWindow, Bool.eq_iff_iff, List.any_eq_true, List.any_eq_true]
  exact exists_congr fun func => and_congr_left' ((occurs_analyze resolves).2 func)

theorem selectsAggregate_of_occurs {calls : List AggregateCall} {one : Selected} {output : Output}
    (occurs : c.Occurs calls one output) :
    selectsAggregate (c.slots calls) output =
      (one.expr.aggregates c.registry).any (!c.isWindow ·) := by
  have slot : ∀ index, ((c.slots calls)[index]?).any (!·.windowed) =
      (functionAt? calls index).any (!c.isWindow ·) := by
    intro index
    rw [slots, List.getElem?_map, functionAt?]
    cases calls[index]? <;> rfl
  calc selectsAggregate (c.slots calls) output
    _ = (output.expr.aggregates.map (functionAt? calls)).any (Option.any (!c.isWindow ·)) := by
      simp only [selectsAggregate, slot, List.any_map]
      rfl
    _ = (one.expr.aggregates c.registry).any (!c.isWindow ·) := by
      rw [occurs.places, List.any_map]
      rfl

theorem depth_layoutOf (resolves : c.Resolves query seconds selected a) :
    (c.layoutOf a).depth = 1 + (c.callsWindow query seconds selected a).toNat +
      (c.computesLast (c.callsWindow query seconds selected a) selected).toNat := by
  obtain ⟨each, -⟩ := occurs_analyze resolves
  have computed : a.outputs.any (·.isComputed) = selected.any (·.expr.isComputed c.registry) :=
    any_of_related each fun one output occurs => occurs.computed
  have selects : a.outputs.any (selectsAggregate (c.slots a.calls)) =
      selected.any fun one => (one.expr.aggregates c.registry).any (!c.isWindow ·) :=
    any_of_related each fun one output => selectsAggregate_of_occurs
  rw [layoutOf, layout, Layout.depth_choose, any_windowed resolves, computed, selects]
  rfl

theorem depth_of_resolves (ok : c.plan query = .ok plan)
    (resolves : c.Resolves query seconds selected a) :
    plan.depth = 1 + (c.callsWindow query seconds selected a).toNat +
      (c.computesLast (c.callsWindow query seconds selected a) selected).toNat := by
  obtain ⟨seconds', a', carried, stages, orderBy, accepts⟩ := accepts_of_plan ok
  obtain rfl := Except.ok.inj (accepts.bucket.symm.trans resolves.bucket)
  obtain rfl := Except.ok.inj (accepts.analyzed.symm.trans resolves.analyzed)
  have built := (StageBuilder.built_build accepts.built).2.2
  rw [accepts.plan, built.depth, depth_layoutOf resolves]

theorem resolves_of_plan (ok : c.plan query = .ok plan) :
    ∃ seconds selected a, c.Resolves query seconds selected a := by
  obtain ⟨seconds, a, carried, stages, orderBy, accepts⟩ := accepts_of_plan ok
  obtain ⟨s, selects, -⟩ := analyze_eq_ok accepts.analyzed
  simp only [selection, bind_eq_ok] at selects
  obtain ⟨selected, selects, -⟩ := selects
  exact ⟨seconds, selected, a, accepts.bucket, selects, accepts.analyzed⟩

/-! ## What makes no difference -/

theorem alike_select {r : Resolver} {seconds : Option Int} {selector selector' : Selector}
    {one other : Selected} (ok : select r selector = .ok one)
    (ok' : select (r.withBucket seconds) selector' = .ok other)
    (same : selector'.expr = selector.expr) :
    other.expr.aggregates r.registry = one.expr.aggregates r.registry ∧
      other.expr.isComputed r.registry = one.expr.isComputed r.registry := by
  obtain ⟨-, e, resolved, aggregated⟩ := select_eq_ok ok
  obtain ⟨-, e', resolved', aggregated'⟩ := select_eq_ok ok'
  rw [same] at resolved'
  have alike := Resolver.alike_resolve resolved resolved'
  rw [aggregated, aggregated', Expr.isComputed, Expr.isComputed, alike.covered, alike.single]
  exact ⟨rfl, rfl⟩

theorem alike_selectEach (r : Resolver) (seconds : Option Int)
    {selectors selectors' : List Selector} {selected selected' : List Selected}
    (each : List.Forall₂ (fun selector one => select r selector = .ok one) selectors selected)
    (each' : List.Forall₂ (fun selector one => select (r.withBucket seconds) selector = .ok one)
      selectors' selected')
    (same : selectors'.map (·.expr) = selectors.map (·.expr)) :
    List.Forall₂ (fun one other =>
      other.expr.aggregates r.registry = one.expr.aggregates r.registry ∧
        other.expr.isComputed r.registry = one.expr.isComputed r.registry) selected selected' := by
  induction each generalizing selectors' selected' with
  | nil =>
    obtain rfl := List.map_eq_nil_iff.mp same
    cases each'
    exact .nil
  | cons head _ ih =>
    cases each' with
    | nil => cases same
    | cons head' tail' =>
      obtain ⟨first, others⟩ := List.cons.inj same
      exact .cons (alike_select head head' first) (ih tail' others)

theorem computesLast_congr {selected selected' : List Selected}
    (each : List.Forall₂ (fun one other =>
      other.expr.aggregates c.registry = one.expr.aggregates c.registry ∧
        other.expr.isComputed c.registry = one.expr.isComputed c.registry) selected selected')
    (window : Bool) : c.computesLast window selected' = c.computesLast window selected := by
  have computed : selected'.any (·.expr.isComputed c.registry) =
      selected.any (·.expr.isComputed c.registry) :=
    any_of_related each fun one other alike => alike.2
  have selects : selected'.any (fun one => (one.expr.aggregates c.registry).any (!c.isWindow ·)) =
      selected.any fun one => (one.expr.aggregates c.registry).any (!c.isWindow ·) :=
    any_of_related each fun one other alike => by rw [alike.1]
  rw [computesLast, computesLast, computed, selects]

theorem callsWindow_of_filter
    (unfiltered : ∀ func ∈ c.filterAggregates query seconds a, c.isWindow func = false) :
    c.callsWindow query seconds selected a =
      selected.any fun one => (one.expr.aggregates c.registry).any c.isWindow := by
  have none : (c.filterAggregates query seconds a).any c.isWindow = false :=
    List.any_eq_false.mpr fun func called => by simp [unfiltered func called]
  rw [callsWindow, List.any_append, none, Bool.or_false, List.any_flatMap]

/-- The number of stages is one, one more for window functions, and one more for what is left to be
computed behind the groups. Unless its filter calls a window function, only the expressions of the
selectors of a query make a difference for it, and it is one if each of them is a single aggregate
that is no window function. -/
theorem depth_plan (ok : c.plan query = .ok plan) :
    ∃ seconds selected a, c.Resolves query seconds selected a ∧
      plan.depth = 1 + (c.callsWindow query seconds selected a).toNat +
        (c.computesLast (c.callsWindow query seconds selected a) selected).toNat ∧
      ((∀ func ∈ c.filterAggregates query seconds a, c.isWindow func = false) →
        (∀ query' plan' seconds' selected' a', c.plan query' = .ok plan' →
          c.Resolves query' seconds' selected' a' →
          query'.selectors.map (·.expr) = query.selectors.map (·.expr) →
          (∀ func ∈ c.filterAggregates query' seconds' a', c.isWindow func = false) →
            plan'.depth = plan.depth) ∧
        ((∀ one ∈ selected, one.expr.isAggregateCall c.registry = true ∧
            ∀ func ∈ one.expr.aggregates c.registry, c.isWindow func = false) →
          plan.depth = 1)) := by
  obtain ⟨seconds, selected, a, resolves⟩ := resolves_of_plan ok
  have depth := depth_of_resolves ok resolves
  refine ⟨seconds, selected, a, resolves, depth, fun unfiltered => ⟨?_, fun bare => ?_⟩⟩
  · intro query' plan' seconds' selected' a' ok' resolves' same unfiltered'
    have each := alike_selectEach ⟨c.schema, c.registry, seconds⟩ seconds'
      (mapM_eq_ok.mp resolves.selects) (mapM_eq_ok.mp resolves'.selects) same
    have window : c.callsWindow query' seconds' selected' a' =
        c.callsWindow query seconds selected a := by
      rw [callsWindow_of_filter unfiltered, callsWindow_of_filter unfiltered']
      exact any_of_related each fun one other alike => by rw [alike.1]
    rw [depth, depth_of_resolves ok' resolves', window, computesLast_congr each]
  · have window : c.callsWindow query seconds selected a = false := by
      rw [callsWindow_of_filter unfiltered, List.any_eq_false]
      exact fun one listed => by simpa using (bare one listed).2
    have single : selected.any (·.expr.isComputed c.registry) = false :=
      List.any_eq_false.mpr fun one listed => by
        simp [Expr.isComputed, (bare one listed).1]
    rw [depth, window, computesLast, single]
    rfl

theorem depth_risingLoad : ∃ plan, hosts.plan .risingLoad = .ok plan ∧
    ∃ seconds selected a, hosts.Resolves .risingLoad seconds selected a ∧
      plan.depth = 1 + (hosts.callsWindow .risingLoad seconds selected a).toNat +
        (hosts.computesLast (hosts.callsWindow .risingLoad seconds selected a) selected).toNat ∧
      ((∀ func ∈ hosts.filterAggregates .risingLoad seconds a, hosts.isWindow func = false) →
        (∀ query' plan' seconds' selected' a', hosts.plan query' = .ok plan' →
          hosts.Resolves query' seconds' selected' a' →
          query'.selectors.map (·.expr) = Query.risingLoad.selectors.map (·.expr) →
          (∀ func ∈ hosts.filterAggregates query' seconds' a', hosts.isWindow func = false) →
            plan'.depth = plan.depth) ∧
        ((∀ one ∈ selected, one.expr.isAggregateCall hosts.registry = true ∧
            ∀ func ∈ one.expr.aggregates hosts.registry, hosts.isWindow func = false) →
          plan.depth = 1)) := by
  obtain ⟨plan, planned⟩ := plan_risingLoad
  exact ⟨plan, planned, depth_plan planned⟩

end Compiler

end Rollup
