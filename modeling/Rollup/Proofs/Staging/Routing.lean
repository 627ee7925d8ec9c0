import Rollup.Proofs.Compiler
import Rollup.Proofs.Group.Settled

/-! Every conjunct of a filter is tested once.

A conjunct without aggregates is tested in the rows of the table, behind the bounds of the time. One
with aggregates is tested where the rows are grouped, and one with computed outputs in the last
stage. Nothing else is tested anywhere.
-/

set_option autoImplicit false

namespace Rollup

-- In a plan of one stage the first stage is also the last one. Its clause then holds the conditions
-- on rows only, because `single` says that there are no others for it.

/-- The conditions in the clauses of a plan whose rows are grouped in a certain stage. -/
structure Plan.Routes (plan : Plan) (grouping : Nat) (bounds rows groups results : List Sql.Expr) :
    Prop where
  grouped : grouping < plan.depth
  filter : ∀ index stage, plan.stages[index]? = some stage →
    stage.filter = Sql.conjunction? ((if index = 0 then bounds ++ rows else []) ++
      (if index + 1 = plan.depth then results else []))
  having : ∀ index stage, plan.stages[index]? = some stage →
    stage.having = Sql.conjunction? (if index = grouping then groups else [])
  /-- A single stage tests no results. -/
  single : plan.depth = 1 → results = []

namespace StageBuilder
variable {b : StageBuilder} {layout : Layout} {stages : List Stage}

/-- The rows that are grouped in a layout. -/
def groupScope (layout : Layout) : Scope := if layout.isWindowed then .window else .table

/-- The stage in which rows are grouped. -/
def groupStageIndex (layout : Layout) : Nat := if layout.isWindowed then 1 else 0

theorem written_of_lastless (checked : b.checkConditions layout = .ok ())
    (lastless : layout.hasLastStage = false) : b.Written .output .groups [] := by
  rw [Written, outputConditions_of_check checked lastless]
  exact .nil

theorem routes_of_built (built : b.Built layout stages)
    (checked : b.checkConditions layout = .ok ()) (orderBy : List (Sql.SortKey Sql.Expr))
    (rows : Option Sql.RowWindow) :
    ∃ early grouped late, b.Written .row .table early ∧
      b.Written .group (groupScope layout) grouped ∧ b.Written .output .groups late ∧
      Plan.Routes ⟨Compiler.finish orderBy rows stages⟩ (groupStageIndex layout) b.timeConditions
        early grouped late := by
  -- In each layout the clauses are read off stage by stage; a stage without one tests nothing.
  cases built with
  | flat groups selects =>
    obtain ⟨early, first, filter⟩ := rowFilter_eq_ok.mp groups.filter
    obtain ⟨grouped, second, having_⟩ := groupFilter_eq_ok.mp groups.having
    refine ⟨early, grouped, [], first, second, written_of_lastless checked rfl, ?_⟩
    refine ⟨Nat.zero_lt_one, ?_, ?_, fun _ => rfl⟩
    · rintro (_ | index) stage place <;> cases place
      simpa using filter
    · rintro (_ | index) stage place <;> cases place
      exact having_
  | computed groups passes computes =>
    obtain ⟨early, first, filter⟩ := rowFilter_eq_ok.mp groups.filter
    obtain ⟨grouped, second, having_⟩ := groupFilter_eq_ok.mp groups.having
    obtain ⟨late, third, filter'⟩ := outputFilter_eq_ok.mp computes.filter
    refine ⟨early, grouped, late, first, second, third, ?_⟩
    refine ⟨Nat.zero_lt_two, ?_, ?_, fun single => nomatch single⟩
    · rintro (_ | _ | index) stage place <;> cases place
      · simpa [Plan.depth, Compiler.finish] using filter
      · exact filter'
    · rintro (_ | _ | index) stage place <;> cases place
      · exact having_
      · exact computes.having
  | windowed windows groups selects =>
    obtain ⟨early, first, filter⟩ := rowFilter_eq_ok.mp windows.filter
    obtain ⟨grouped, second, having_⟩ := groupFilter_eq_ok.mp groups.having
    refine ⟨early, grouped, [], first, second, written_of_lastless checked rfl, ?_⟩
    refine ⟨Nat.one_lt_two, ?_, ?_, fun _ => rfl⟩
    · rintro (_ | _ | index) stage place <;> cases place
      · simpa [Plan.depth, Compiler.finish] using filter
      · exact groups.filter
    · rintro (_ | _ | index) stage place <;> cases place
      · exact windows.having
      · exact having_
  | windowedComputed windows groups passes computes =>
    obtain ⟨early, first, filter⟩ := rowFilter_eq_ok.mp windows.filter
    obtain ⟨grouped, second, having_⟩ := groupFilter_eq_ok.mp groups.having
    obtain ⟨late, third, filter'⟩ := outputFilter_eq_ok.mp computes.filter
    have second_ : 1 < 3 := by omega
    refine ⟨early, grouped, late, first, second, third, ?_⟩
    refine ⟨second_, ?_, ?_, fun single => nomatch single⟩
    · rintro (_ | _ | _ | index) stage place <;> cases place
      · simpa [Plan.depth, Compiler.finish] using filter
      · exact groups.filter
      · exact filter'
    · rintro (_ | _ | _ | index) stage place <;> cases place
      · exact windows.having
      · exact having_
      · exact computes.having

end StageBuilder

namespace Compiler
variable {c : Compiler} {query : Query} {seconds : Option Int} {a : Analysis}
  {carried : List String}

/-! ## Conjuncts -/

/-- The tests of the range of time of a query. -/
def timeBounds (c : Compiler) (query : Query) : List Sql.Expr :=
  match query.interval with
  | none => []
  | some interval =>
    [.binary .gte (.named (c.timeColumn query)) (c.dialect.timestamp interval.start),
      .binary .lt (.named (c.timeColumn query)) (c.dialect.timestamp interval.stop)]

/-- The conjuncts of the filter that are to be tested at a level, in their order. -/
def conjunctsAt (scope : FilterScope) (query : Query) (level : Level) : List Expr :=
  query.conjuncts.filter fun conjunct => scope.levelOf conjunct == level

/-- An expression that a conjunct is written as: its condition, whose aggregates are those of the
query that are equal to its calls. -/
def Renders (c : Compiler) (query : Query) (seconds : Option Int) (a : Analysis)
    (carried : List String) (place : Scope) (conjunct : Expr) (e : Sql.Expr) : Prop :=
  ∃ condition ∈ a.conditions,
    ((c.filterScope seconds a.keys a.outputs).liftCondition conjunct).run a.calls =
      .ok (condition, a.calls) ∧
    (c.filterScope seconds a.keys a.outputs).InternsCondition a.calls conjunct condition ∧
    (c.builder query seconds a carried).renderer.render place condition.expr = .ok e

theorem rightUnique_renders (place : Scope) :
    Relator.RightUnique (c.Renders query seconds a carried place) := by
  rintro conjunct e e' ⟨condition, -, run, -, ok⟩ ⟨condition', -, run', -, ok'⟩
  obtain ⟨rfl, -⟩ := Prod.mk.inj (Except.ok.inj (run.symm.trans run'))
  exact Except.ok.inj (ok.symm.trans ok')

theorem timeConditions_builder :
    (c.builder query seconds a carried).timeConditions = c.timeBounds query := by
  simp only [StageBuilder.timeConditions, builder, timeRange, timeBounds]
  cases query.interval with
  | none => rfl
  | some interval => rfl

theorem renders_of_written (analyzed : c.analyze query ⟨c.schema, c.registry, seconds⟩ = .ok a)
    (sound : a.Sound c query seconds) {level : Level} {place : Scope} {written : List Sql.Expr}
    (each : (c.builder query seconds a carried).Written level place written) :
    List.Forall₂ (c.Renders query seconds a carried place)
      (conjunctsAt (c.filterScope seconds a.keys a.outputs) query level) written := by
  -- Conjuncts and their conditions are at the same levels, so both lists are filtered alike.
  have conditions : List.Forall₂ (fun conjunct condition =>
        ((c.filterScope seconds a.keys a.outputs).liftCondition conjunct).run a.calls =
          .ok (condition, a.calls))
      (conjunctsAt (c.filterScope seconds a.keys a.outputs) query level)
      (a.conditions.filter (·.level == level)) := by
    refine List.rel_filter (fun conjunct condition run => ?_) (settled_conditions analyzed)
    obtain ⟨-, tests⟩ := FilterScope.tests_liftCondition (P := fun _ => True) sound.outputs
      (fun _ _ => trivial) run fun _ _ _ _ => trivial
    simp [tests.level]
  have listed := forall₂_imp_of_mem each fun condition member e ok =>
    And.intro (List.mem_of_mem_filter member) ok
  refine (related_comp conditions listed).imp fun conjunct e => ?_
  rintro ⟨condition, run, member, ok⟩
  exact ⟨condition, member, run, (FilterScope.interns_liftCondition run).2, ok⟩

/-! ## Refused conjuncts -/

/-- All of a query before a conjunct of its filter is accepted. -/
structure Reaches (c : Compiler) (query : Query) (seconds : Option Int) (s : Selection)
    (conjunct : Expr) (calls : List AggregateCall) : Prop where
  selectors : query.selectors.isEmpty = false
  stored : c.schema.isStored (c.timeColumn query) = true
  bucket : bucketSeconds query = .ok seconds
  selects : c.selection query ⟨c.schema, c.registry, seconds⟩ = .ok s
  before : ∃ before after conditions, query.conjuncts = before ++ conjunct :: after ∧
    (before.mapM (c.filterScope seconds s.keys s.outputs).liftCondition).run s.calls =
      .ok (conditions, calls)

theorem run_mapM_error {α β σ ε : Type} {f : α → StateT σ (Except ε) β} {before after : List α}
    {x : α} {s t : σ} {ys : List β} {fault : ε} (first : (before.mapM f).run s = .ok (ys, t))
    (failed : (f x).run t = .error fault) :
    ((before ++ x :: after).mapM f).run s = .error fault := by
  rw [List.mapM_append, List.mapM_cons]
  refine run_bind_eq_error.mpr (.inr ⟨ys, t, first, ?_⟩)
  exact run_bind_eq_error.mpr (.inl (run_bind_eq_error.mpr (.inl failed)))

theorem plan_of_refused {s : Selection} {conjunct : Expr} {calls : List AggregateCall}
    {fault : CompileError} (reaches : c.Reaches query seconds s conjunct calls)
    (failed : ((c.filterScope seconds s.keys s.outputs).liftCondition conjunct).run calls =
      .error fault) : c.plan query = .error fault := by
  obtain ⟨before, after, conditions, split_, first⟩ := reaches.before
  have tests : ((c.filterScope seconds s.keys s.outputs).conditions query.filter).run s.calls =
      .error fault := by
    unfold Query.conjuncts at split_
    cases filter : query.filter with
    | none =>
      rw [filter] at split_
      cases before <;> cases split_
    | some e =>
      rw [filter] at split_
      have conjuncts : e.conjuncts = before ++ conjunct :: after := split_
      rw [FilterScope.conditions, conjuncts]
      exact run_mapM_error first failed
  have analyzed : c.analyze query ⟨c.schema, c.registry, seconds⟩ = .error fault := by
    have selects := reaches.selects
    simp only [selection, bind_eq_ok, pure_eq_ok] at selects
    obtain ⟨selected, selects, keys, grouped, ⟨outputs, calls⟩, lifted, names, named, rfl⟩ :=
      selects
    -- All that comes before the filter succeeds, and the filter is next.
    refine bind_eq_error.mpr (.inr ⟨selected, selects, ?_⟩)
    refine bind_eq_error.mpr (.inr ⟨keys, grouped, ?_⟩)
    refine bind_eq_error.mpr (.inr ⟨(outputs, calls), lifted, ?_⟩)
    refine bind_eq_error.mpr (.inr ⟨names, named, ?_⟩)
    exact bind_eq_error.mpr (.inl tests)
  have refused : c.planWithColumns query = .error fault := by
    rw [planWithColumns, reaches.selectors, if_neg Bool.false_ne_true]
    simp only [reaches.stored, Bool.not_true, Bool.false_eq_true, if_false]
    exact bind_eq_error.mpr (.inr ⟨seconds, reaches.bucket, bind_eq_error.mpr (.inl analyzed)⟩)
  exact bind_eq_error.mpr (.inl refused)

/-! ## Clauses -/

/-- The clauses of a plan hold the bounds of the time and what every conjunct is written as. -/
structure Routed (c : Compiler) (query : Query) (seconds : Option Int) (a : Analysis)
    (carried : List String) (plan : Plan) (rows groups results : List Sql.Expr) : Prop where
  clauses : plan.Routes (StageBuilder.groupStageIndex (c.layoutOf a)) (c.timeBounds query) rows
    groups results
  rows : List.Forall₂ (c.Renders query seconds a carried .table)
    (conjunctsAt (c.filterScope seconds a.keys a.outputs) query .row) rows
  groups : List.Forall₂
    (c.Renders query seconds a carried (StageBuilder.groupScope (c.layoutOf a)))
    (conjunctsAt (c.filterScope seconds a.keys a.outputs) query .group) groups
  results : List.Forall₂ (c.Renders query seconds a carried .groups)
    (conjunctsAt (c.filterScope seconds a.keys a.outputs) query .output) results

/-- Nothing else can be in the clauses. -/
theorem Routed.unique {plan plan' : Plan}
    {rows groups results rows' groups' results' : List Sql.Expr}
    (one : c.Routed query seconds a carried plan rows groups results)
    (other : c.Routed query seconds a carried plan' rows' groups' results') :
    rows' = rows ∧ groups' = groups ∧ results' = results :=
  ⟨(rightUnique_renders _).forall₂ other.rows one.rows,
    (rightUnique_renders _).forall₂ other.groups one.groups,
    (rightUnique_renders _).forall₂ other.results one.results⟩

/-- Every conjunct of an accepted filter is tested once, at its place. A conjunct is refused exactly
if it is mixed, and the query with it. -/
theorem routed_plan (c : Compiler) (query : Query) :
    (∀ plan, c.plan query = .ok plan → ∃ seconds a carried rows groups results,
      bucketSeconds query = .ok seconds ∧
      c.analyze query ⟨c.schema, c.registry, seconds⟩ = .ok a ∧
      c.carriedIn query a = .ok carried ∧
      c.Routed query seconds a carried plan rows groups results ∧
      ∀ rows' groups' results',
        c.Routed query seconds a carried plan rows' groups' results' →
          rows' = rows ∧ groups' = groups ∧ results' = results) ∧
    ∀ seconds s conjunct calls x calls', c.Reaches query seconds s conjunct calls →
      ((c.filterScope seconds s.keys s.outputs).liftExpr conjunct).run calls = .ok (x, calls') →
      (((c.filterScope seconds s.keys s.outputs).liftCondition conjunct).run calls =
          .error (.mixedFilterLevels conjunct.render) ↔
        (c.filterScope seconds s.keys s.outputs).IsMixed conjunct) ∧
      ((c.filterScope seconds s.keys s.outputs).IsMixed conjunct →
        c.plan query = .error (.mixedFilterLevels conjunct.render)) := by
  constructor
  · intro plan ok
    obtain ⟨seconds, a, carried, stages, orderBy, accepts⟩ := accepts_of_plan ok
    have sound := accepts.analysis
    obtain ⟨checked, -, built⟩ := StageBuilder.built_build accepts.built
    obtain ⟨rows, groups, results, first, second, third, routes⟩ :=
      StageBuilder.routes_of_built built checked orderBy (query.limit.map rowWindow)
    rw [timeConditions_builder, ← accepts.plan] at routes
    have routed : c.Routed query seconds a carried plan rows groups results :=
      ⟨routes, renders_of_written accepts.analyzed sound first,
        renders_of_written accepts.analyzed sound second,
        renders_of_written accepts.analyzed sound third⟩
    exact ⟨seconds, a, carried, rows, groups, results, accepts.bucket, accepts.analyzed,
      accepts.carries, routed, fun _ _ _ => routed.unique⟩
  · intro seconds s conjunct calls x calls' reaches lifted
    have outputs := (sound_selection reaches.selects).outputs
    have refused := FilterScope.liftCondition_mixed outputs lifted
    exact ⟨refused, fun mixed => plan_of_refused reaches (refused.mpr mixed)⟩

def mixedCondition : Expr := .binary .gt (.call "sum" [.column "mem"]) (.column "cpu")

def mixedQuery : Query where
  selectors := [⟨.column "host", none⟩]
  filter := some mixedCondition

theorem routed_risingLoad :
    (∃ plan, hosts.plan .risingLoad = .ok plan ∧ ∃ seconds a carried rows groups results,
      bucketSeconds .risingLoad = .ok seconds ∧
      hosts.analyze .risingLoad ⟨.hosts, hosts.registry, seconds⟩ = .ok a ∧
      hosts.carriedIn .risingLoad a = .ok carried ∧
      hosts.Routed .risingLoad seconds a carried plan rows groups results ∧
      ∀ rows' groups' results',
        hosts.Routed .risingLoad seconds a carried plan rows' groups' results' →
          rows' = rows ∧ groups' = groups ∧ results' = results) ∧
    ∃ s calls, hosts.Reaches mixedQuery none s mixedCondition calls ∧
      (hosts.filterScope none s.keys s.outputs).IsMixed mixedCondition ∧
      hosts.plan mixedQuery = .error (.mixedFilterLevels mixedCondition.render) := by
  constructor
  · obtain ⟨plan, ok⟩ := plan_risingLoad
    exact ⟨plan, ok, (routed_plan hosts .risingLoad).1 plan ok⟩
  · have computed : ((hosts.selection mixedQuery ⟨.hosts, hosts.registry, none⟩).toOption.any
        fun s => ((hosts.filterScope none s.keys s.outputs).liftExpr mixedCondition |>.run
            s.calls).toOption.isSome &&
          (hosts.filterScope none s.keys s.outputs).levelOf mixedCondition != .row &&
          ((hosts.filterScope none s.keys s.outputs).columnsRead mixedCondition).any
            fun column => (keyOf? s.keys column).isNone) = true := by decide +kernel
    obtain ⟨s, selected, tested⟩ := any_toOption.mp computed
    simp only [Bool.and_eq_true, bne_iff_ne, List.any_eq_true, Option.isNone_iff_eq_none] at tested
    obtain ⟨⟨lifts, waits⟩, mixed⟩ := tested
    obtain ⟨⟨x, calls⟩, lifted⟩ := isSome_toOption.mp lifts
    have reaches : hosts.Reaches mixedQuery none s mixedCondition s.calls :=
      ⟨rfl, by decide, rfl, selected, [], [], [], rfl, rfl⟩
    have refused :=
      (routed_plan hosts mixedQuery).2 none s mixedCondition s.calls x calls reaches lifted
    exact ⟨s, s.calls, reaches, ⟨waits, mixed⟩, refused.2 ⟨waits, mixed⟩⟩

end Compiler

end Rollup
