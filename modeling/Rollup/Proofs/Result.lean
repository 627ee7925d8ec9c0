import Rollup.Proofs.Compiler
import Rollup.Proofs.Group.Key
import Rollup.Proofs.Group.Typing
import Rollup.Proofs.Plan

/-! The columns of a result.

They are the fields of the last stage: the start of the bucket, then the keys of the groups, then
the selectors that are no keys, each under the name that was asked for. Their names and types are
those of the selection, whatever the database, the filter, the order and the limit are.
-/

set_option autoImplicit false

namespace Rollup

theorem Compiler.getLast?_finish {orderBy : List (Sql.SortKey Sql.Expr)}
    {rows : Option Sql.RowWindow} (stages : List Stage) :
    (finish orderBy rows stages).getLast? =
      stages.getLast?.map fun last => { last with orderBy, rows } := by
  fun_induction finish orderBy rows stages with
  | case1 => rfl
  | case2 last => rfl
  | case3 stage next rest ih =>
    have some : ∃ first others, finish orderBy rows (next :: rest) = first :: others := by
      cases rest <;> exact ⟨_, _, rfl⟩
    obtain ⟨first, others, same⟩ := some
    rw [same] at ih ⊢
    rw [List.getLast?_cons_cons, List.getLast?_cons_cons, ih]

theorem StageBuilder.Built.selects {b : StageBuilder} {layout : Layout} {stages : List Stage}
    (built : b.Built layout stages) :
    ∃ last scope, stages.getLast? = some last ∧ b.Selects scope last := by
  cases built with
  | flat _ selects => exact ⟨_, .table, rfl, selects⟩
  | computed _ _ computes => exact ⟨_, .groups, rfl, computes.toSelects⟩
  | windowed _ _ selects => exact ⟨_, .window, rfl, selects⟩
  | windowedComputed _ _ _ computes => exact ⟨_, .groups, rfl, computes.toSelects⟩

namespace Compiler

theorem names_outputColumns (scope : TypeScope) (outputs : List Output) (bucketed : Bool) :
    (outputColumns scope outputs bucketed).map (·.name) =
      (if bucketed then [bucketName] else []) ++ scope.keys.map (·.name) ++
        (outputs.filter (!·.isKey)).map (·.name) := by
  have bucket : ((if bucketed then [OutputColumn.mk bucketName .int] else []).map (·.name)) =
      if bucketed then [bucketName] else [] := by
    cases bucketed <;> rfl
  have keys : (scope.keys.mapIdx fun index key =>
      OutputColumn.mk key.name (scope.typeOf (.reference (.key index)))).map (·.name) =
        scope.keys.map (·.name) := by
    rw [List.mapIdx_eq_zipIdx_map, List.map_map]
    have named := congrArg (List.map GroupKey.name) (List.zipIdx_map_fst 0 scope.keys)
    rw [List.map_map] at named
    exact named
  simp only [outputColumns, List.map_append, List.map_map, bucket, keys]
  rfl

variable {c : Compiler} {query : Query} {seconds : Option Int} {a : Analysis}
  {carried : List String}

theorem names_lifted {schema : Schema} {registry : Registry} {groupBy : List String}
    {selected : List Selected} {keys : List GroupKey} {outputs : List Output}
    {calls : List AggregateCall} (grouped : groupKeys schema groupBy selected = .ok keys)
    (lifted : (selected.mapM (liftOutput registry keys)).run [] = .ok (outputs, calls)) :
    (outputs.filter (!·.isKey)).map (·.name) =
      (selected.filter (!isGroupColumn schema selected ·)).map (·.name) := by
  obtain ⟨-, each⟩ := (mapM_run_eq_ok.mp lifted).invariant (I := fun _ => True)
    (G := fun s output => output.isKey = isGroupColumn schema selected s ∧ output.name = s.name)
    (fun s _ output calls calls' ok _ => by
      refine ⟨trivial, isKey_liftOutput grouped ok, ?_⟩
      simp only [liftOutput, run_bind_eq_ok, run_pure_eq_ok] at ok
      obtain ⟨x, last, -, rfl, -⟩ := ok
      rfl) trivial
  exact filter_map_of_related each fun s output same => ⟨by rw [same.1], same.2⟩

/-- What the columns of a result are called, given the selectors as they are resolved. -/
structure Reports (c : Compiler) (query : Query) (selected : List Selected)
    (compiled : CompiledQuery) : Prop where
  fields : compiled.plan.outermost?.map (·.names) = some (compiled.columns.map (·.name))
  /-- The bucket, the dimensions of the groups, and the selectors that are none of these. -/
  names : compiled.columns.map (·.name) = (if isBucketed query then [bucketName] else []) ++
    (groupDimensions c.schema query.groupBy selected).map (dimensionName c.schema selected) ++
    (selected.filter (!isGroupColumn c.schema selected ·)).map (·.name)
  distinct : (compiled.columns.map (·.name)).Nodup
  once : ∀ selector ∈ query.selectors, ∃ name, selector.outputName? = some name ∧
    (compiled.columns.map (·.name)).count name = 1

theorem names_analyze (ok : c.analyze query ⟨c.schema, c.registry, seconds⟩ = .ok a) :
    ∃ selected, query.selectors.mapM (select ⟨c.schema, c.registry, seconds⟩) = .ok selected ∧
      a.names = (if isBucketed query then [bucketName] else []) ++
        (groupDimensions c.schema query.groupBy selected).map (dimensionName c.schema selected) ++
        (selected.filter (!isGroupColumn c.schema selected ·)).map (·.name) := by
  have sound := sound_analyze ok
  obtain ⟨s, selects, keys, outputs, -, -⟩ := analyze_eq_ok ok
  simp only [selection, bind_eq_ok, pure_eq_ok] at selects
  obtain ⟨selected, selects, keys', grouped, ⟨outputs', calls⟩, lifted, names, -, rfl⟩ := selects
  refine ⟨selected, selects, ?_⟩
  rw [sound.names, keys, outputs, names_lifted grouped lifted, groupKeys_eq grouped, List.map_map,
    List.append_assoc]
  rfl

theorem names_resultColumns (sound : a.Sound c query seconds) (carried : List String) :
    (c.resultColumns query a carried).map (·.name) = a.names := by
  rw [resultColumns, names_outputColumns, sound.names, List.append_assoc,
    selectedNames_eq (sharing_of_sound sound).each]

/-- The columns of a result are what the last stage selects, in the order of the query. -/
theorem reports_compile {pretty : Bool} {compiled : CompiledQuery}
    (ok : c.compile query pretty = .ok compiled) :
    ∃ seconds selected, bucketSeconds query = .ok seconds ∧
      query.selectors.mapM (select ⟨c.schema, c.registry, seconds⟩) = .ok selected ∧
      c.Reports query selected compiled := by
  obtain ⟨⟨plan, columns⟩, planned, rfl⟩ := bind_pure_eq_ok.mp ok
  obtain ⟨seconds, a, carried, stages, orderBy, accepts, rfl⟩ := accepts_of_planWithColumns planned
  have sound := accepts.analysis
  have named := names_resultColumns sound carried
  obtain ⟨selected, selects, order⟩ := names_analyze accepts.analyzed
  obtain ⟨-, -, built⟩ := StageBuilder.built_build accepts.built
  refine ⟨seconds, selected, accepts.bucket, selects, ⟨?_, named.trans order, ?_, ?_⟩⟩
  · obtain ⟨last, scope, top, fields⟩ := built.selects
    have names : last.names = a.names := fields.names.trans accepts.names_builder.symm
    rw [accepts.plan, Plan.outermost?, getLast?_finish, top, named, ← names]
    rfl
  · exact named ▸ sound.distinct
  · intro selector member
    obtain ⟨s, among, chosen⟩ := related_of_mem_left (mapM_eq_ok.mp selects) member
    obtain ⟨given, -⟩ := select_eq_ok chosen
    refine ⟨s.name, given, ?_⟩
    rw [named]
    refine List.count_eq_one_of_mem sound.distinct ?_
    rw [order, List.append_assoc]
    exact List.mem_append_right _ (name_mem_columns query.groupBy among)

end Compiler

/-- The load of hosts in their regions, which are selected under two names. -/
def Query.zonedLoad : Query where
  selectors := [⟨.column "cpu", none⟩, ⟨.column "region", some "zone"⟩,
    ⟨.column "region", some "area"⟩]
  groupBy := ["host", "host"]
  interval := some ⟨⟨0, 0⟩, ⟨3600, 0⟩, some ⟨60, .minutes⟩, none⟩

namespace Compiler

theorem reports_zonedLoad : ∃ compiled, hosts.compile .zonedLoad true = .ok compiled ∧
    ∃ seconds selected, bucketSeconds .zonedLoad = .ok seconds ∧
      Query.zonedLoad.selectors.mapM (select ⟨.hosts, hosts.registry, seconds⟩) = .ok selected ∧
      hosts.Reports .zonedLoad selected compiled := by
  obtain ⟨compiled, ok⟩ : ∃ compiled, hosts.compile .zonedLoad true = .ok compiled :=
    isSome_toOption.mp (by decide +kernel)
  exact ⟨compiled, ok, reports_compile ok⟩

example : (hosts.compile .zonedLoad true).toOption.map (·.columns.map (·.name)) =
    some ["_timestamp", "host", "zone", "cpu", "area"] := by decide +kernel

end Compiler

/-! ## What the columns depend on -/

namespace Compiler
variable {c : Compiler} {query : Query} {seconds : Option Int} {a : Analysis}
  {carried : List String}

theorem selection_of_analyze (ok : c.analyze query ⟨c.schema, c.registry, seconds⟩ = .ok a) :
    ∃ s, c.selection query ⟨c.schema, c.registry, seconds⟩ = .ok s ∧ a.keys = s.keys ∧
      a.outputs = s.outputs ∧ s.calls <+: a.calls ∧
      ∀ output ∈ s.outputs, output.expr.IsWithin (extentOf s.keys.length 0 s.calls) := by
  obtain ⟨s, selects, keys, outputs, -, tests⟩ := analyze_eq_ok ok
  have gathered : s.Gathered fun _ => True :=
    gathered_selection (fun _ _ _ _ _ _ _ _ => trivial) selects
  have conditions := gathersEach_analyze gathered (fun _ _ _ _ _ _ _ _ => trivial) tests
  exact ⟨s, selects, keys, outputs, conditions.collected.kept, gathered.within⟩

theorem Prepares.resultColumns (prepares : c.Prepares query seconds a carried) :
    ∃ s, c.selection query ⟨c.schema, c.registry, seconds⟩ = .ok s ∧
      c.resultColumns query a carried =
        outputColumns ⟨c.schema, s.keys, s.calls, []⟩ s.outputs (isBucketed query) := by
  obtain ⟨s, selects, keys, outputs, kept, within⟩ := selection_of_analyze prepares.analyzed
  have sound := sound_selection selects
  have sharing := sharing_of_sound prepares.analysis
  refine ⟨s, selects, ?_⟩
  have each : List.Forall₂ (fun output output' => output ∈ s.outputs ∧
      SharedFrom ((c.named a carried).2.map (·.expr)) output output')
      s.outputs (c.sharing a).1 := by
    have exprs : (c.named a carried).2.map (·.expr) = (c.sharing a).2.map (·.expr) :=
      prepares.assigned.exprs
    have from_ := sharing.each
    rw [outputs, ← exprs] at from_
    exact forall₂_imp_of_mem from_ fun output member output' from_ => ⟨member, from_⟩
  have columns := filter_map_of_related each (p := (!·.isKey)) (q := (!·.isKey))
    (f := fun output => OutputColumn.mk output.name
      (TypeScope.typeOf ⟨c.schema, s.keys, s.calls, []⟩ output.expr))
    (g := fun output => OutputColumn.mk output.name
      (TypeScope.typeOf ⟨c.schema, a.keys, a.calls, (c.named a carried).2⟩ output.expr))
    fun output output' ⟨member, from_⟩ => by
      have plain := (sound.outputs output member).isPlain
      refine ⟨by rw [Output.isKey, Output.isKey, from_.kind], ?_⟩
      rw [from_.name, TypeScope.typeOf_shared from_, TypeScope.typeOf_eq, List.map_nil,
        GroupExpr.unshare_eq_self plain, keys]
      -- The aggregates of the filter come behind those that an output refers to.
      rw [GroupExpr.dataType_congr fun target refers =>
        TypeScope.plainType_of_prefix kept (within output member target refers)]
  rw [Compiler.resultColumns, outputColumns, outputColumns, columns, keys]
  rfl

/-- Two accepted queries that differ in the database, the filter, the order and the limit at most
have the same columns with the same types. -/
theorem columns_of_selection {dialect : Sql.Dialect} {filter : Option Expr}
    {orderBy : List OrderBy} {limit : Option Limit} {pretty pretty' : Bool}
    {first second : CompiledQuery} (ok : c.compile query pretty = .ok first)
    (ok' : { c with dialect }.compile { query with filter, orderBy, limit } pretty' = .ok second) :
    first.columns = second.columns := by
  obtain ⟨⟨plan, columns⟩, planned, rfl⟩ := bind_pure_eq_ok.mp ok
  obtain ⟨⟨plan', columns'⟩, planned', rfl⟩ := bind_pure_eq_ok.mp ok'
  obtain ⟨seconds, a, carried, stages, sorted, accepts, rfl⟩ := accepts_of_planWithColumns planned
  obtain ⟨seconds', a', carried', stages', sorted', accepts', rfl⟩ :=
    accepts_of_planWithColumns planned'
  -- Neither the length of the buckets nor the selection looks at what may differ.
  have same : bucketSeconds query = .ok seconds' := accepts'.bucket
  obtain rfl := Except.ok.inj (accepts.bucket.symm.trans same)
  obtain ⟨s, selects, is⟩ := accepts.toPrepares.resultColumns
  obtain ⟨s', selects', is'⟩ := accepts'.toPrepares.resultColumns
  have selects' : c.selection query ⟨c.schema, c.registry, seconds⟩ = .ok s' := selects'
  obtain rfl := Except.ok.inj (selects.symm.trans selects')
  rw [is, is']
  rfl

theorem columns_strongestRise : ∃ first second, hosts.compile .risingLoad true = .ok first ∧
    clickhouseHosts.compile { Query.risingLoad with
      filter := none, orderBy := [⟨"change", true⟩], limit := some ⟨3, 0⟩ } false = .ok second ∧
    first.columns = second.columns := by
  obtain ⟨first, ok⟩ := compile_risingLoad
  obtain ⟨second, ok'⟩ : ∃ second, clickhouseHosts.compile { Query.risingLoad with
      filter := none, orderBy := [⟨"change", true⟩], limit := some ⟨3, 0⟩ } false = .ok second :=
    isSome_toOption.mp (by decide +kernel)
  exact ⟨first, second, ok, ok', columns_of_selection ok ok'⟩

end Compiler

end Rollup
