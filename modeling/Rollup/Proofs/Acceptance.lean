import Rollup.Proofs.Staging.Written

/-! What one database accepts, the others accept.

The analysis of a query does not look at the database, and every known database has the means for
what a query asks for. Aggregates that no database can compute, which are rates without buckets, are
refused by all of them, since each aggregate is written somewhere. What remains is how names are
seen: a name of a field may hide a column beside it, and the name of a group key may hide a column
that is passed on to the stage above it.
-/

set_option autoImplicit false

namespace Rollup

theorem Renderer.bucketed_of_rate {r : Renderer} {call : AggregateCall} {e : Sql.Expr}
    (ok : r.aggregate call = .ok e) (rate : call.func = .rate) : r.bucketSeconds ≠ none := by
  intro unbucketed
  unfold aggregate at ok
  split at ok
  · obtain ⟨value, -, ok⟩ := bind_eq_ok.mp ok
    simp only [aggregateOf, rate, unbucketed] at ok
    cases ok
  · rw [rate] at ok
    cases ok

theorem Renderer.capable_of_isSome {P : CompileError → Prop} {r : Renderer}
    {call : AggregateCall} {e : Option Sql.Expr} (able : e.isSome = true) :
    FailsOnly P (r.capability call e) := by
  obtain ⟨x, rfl⟩ := Option.isSome_iff_exists.mp able
  exact .ok x

namespace Compiler

def on (schema : Schema) (database : Sql.Database) : Compiler :=
  ⟨schema, database.dialect, .builtin⟩

/-- The refusals that databases do not share: on ClickHouse a name of a field may hide a column
beside it, and behind a window stage an alias of a group key may hide one that is passed on. -/
def RefusesAlone (schema : Schema) (query : Query) (database : Sql.Database)
    (fault : CompileError) : Prop :=
  database = .clickhouse ∧ (∃ name, fault = .shadowedColumn name "clickhouse") ∨
    database ∈ [Sql.Database.h2, .mysql, .postgres] ∧ ∃ seconds a key,
      bucketSeconds query = .ok seconds ∧
        (on schema database).analyze query ⟨schema, .builtin, seconds⟩ = .ok a ∧ key ∈ a.keys ∧
          key.name ≠ key.column ∧ fault = .unsupported key.name .keyHidesColumn

variable {c : Compiler} {query : Query} {seconds : Option Int} {a : Analysis}
  {carried : List String}

theorem Prepares.means_of_able {P : CompileError → Prop} (able : c.dialect.Able)
    (needs : c.registry.NeedsArguments) (prepares : c.Prepares query seconds a carried)
    (rate : ∀ call ∈ a.calls, call.func = .rate → seconds = none →
      P (.unsupported call.render .rateWithoutInterval)) :
    (c.builder query seconds a carried).MeansFailOnly P where
  bucket := by
    unfold StageBuilder.bucketStart?
    split
    · rename_i column step _
      obtain ⟨e, floor⟩ := Option.isSome_iff_exists.mp (able.timeFloor (.named column) step)
      have floor : (c.builder query seconds a carried).renderer.dialect.timeFloor
        (.named column) step = some e := floor
      rw [floor]
      exact .ok _
    · exact .ok _
  aggregates slot member grouped := by
    have listed := prepares.call_mem member
    refine Renderer.failsOnly_aggregate ((complete_analyze needs prepares.analyzed).calls _ listed)
      (rate _ listed) (fun value => Renderer.capable_of_isSome (able.join value))
      fun picks last value time => Renderer.capable_of_isSome ?_
    have windowed := (prepares.windowed_of_mem member).symm.trans grouped
    rw [picks, Bool.true_and] at windowed
    exact able.pick slot.call.func picks windowed last value time

/-! ## Two databases -/

section
variable {schema : Schema} {first second : Sql.Database} {carried' : List String}
  {stages : List Stage}

theorem bucketed_of_built (prepares : (on schema first).Prepares query seconds a carried)
    (built : ((on schema first).builder query seconds a carried).Built
      ((on schema first).layoutOf a) stages) {call : AggregateCall} (member : call ∈ a.calls)
    (rate : call.func = .rate) : seconds ≠ none := by
  obtain ⟨slot, listed, rfl⟩ := prepares.slot_of_mem member
  have grouped : slot.windowed = false := by
    rw [prepares.windowed_of_mem listed, rate]
    rfl
  obtain ⟨e, ok, -⟩ := prepares.computed_of_built needsArguments_builtin built listed grouped
  exact Renderer.bucketed_of_rate ok rate

theorem failsOnly_build_elsewhere
    (prepares : (on schema first).Prepares query seconds a carried)
    (built : ((on schema first).builder query seconds a carried).Built
      ((on schema first).layoutOf a) stages)
    (prepares' : (on schema second).Prepares query seconds a carried') :
    FailsOnly (fun fault => second.dialect.aliasInWhere = true ∧
        ∃ name, fault = .shadowedColumn name second.dialect.name)
      (((on schema second).builder query seconds a carried').build
        ((on schema second).layoutOf a)) := by
  have able : (on schema second).dialect.Able := Sql.able_dialect second
  refine (prepares'.ready_builder needsArguments_builtin).failsOnly_build ?_
    fun visible name => ⟨visible, name, rfl⟩
  refine prepares'.means_of_able able needsArguments_builtin fun call member rate unbucketed => ?_
  exact absurd unbucketed (bucketed_of_built prepares built member rate)

theorem windows_of_isWindowed (windowed : ((on schema second).layoutOf a).isWindowed = true) :
    second ∈ [Sql.Database.h2, .mysql, .postgres] := by
  have some : ((on schema second).slots a.calls).any (·.windowed) = true := by
    by_contra none
    rw [layoutOf, layout, Layout.choose, if_neg none] at windowed
    split at windowed <;> cases windowed
  obtain ⟨slot, member, is⟩ := List.any_eq_true.mp some
  obtain ⟨call, -, rfl⟩ := List.mem_map.mp member
  have window := (Bool.and_eq_true_iff.mp is).2
  cases second <;> first | decide | cases window

theorem refused_elsewhere {plan : Plan} {columns : List OutputColumn} {fault : CompileError}
    (accepted : (on schema first).planWithColumns query = .ok (plan, columns))
    (refused : (on schema second).Refuses query fault) :
    RefusesAlone schema query second fault := by
  obtain ⟨seconds, a, carried, stages, orderBy, accepts, -⟩ := accepts_of_planWithColumns accepted
  obtain ⟨-, -, built⟩ := StageBuilder.built_build accepts.built
  -- What comes before the stages is the same for both databases but for the columns passed on.
  have agree : ∀ seconds', bucketSeconds query = .ok seconds' → seconds' = seconds :=
    fun seconds' bucket => Except.ok.inj (bucket.symm.trans accepts.bucket)
  have analyzed : (on schema second).analyze query ⟨schema, .builtin, seconds⟩ = .ok a :=
    accepts.analyzed
  cases refused with
  | selectors empty =>
    unfold planWithColumns at accepted
    rw [if_pos empty] at accepted
    cases accepted
  | time unstored =>
    have stored : schema.isStored ((on schema second).timeColumn query) = true := accepts.stored
    cases stored.symm.trans unstored
  | interval bucket => cases bucket.symm.trans accepts.bucket
  | analysis seconds' bucket failed =>
    obtain rfl := agree seconds' bucket
    cases failed.symm.trans analyzed
  | carried seconds' a' bucket analyzed' carries =>
    obtain ⟨windowed, key, member, renamed, is⟩ :=
      (on schema second).failsOnly_carriedIn query a' _ carries
    exact .inr ⟨windows_of_isWindowed windowed, seconds', a', key, bucket, analyzed', member,
      renamed, is⟩
  | order seconds' a' bucket analyzed' failed =>
    obtain rfl := agree seconds' bucket
    obtain rfl := Except.ok.inj (analyzed'.symm.trans analyzed)
    cases failed.symm.trans accepts.sorted
  | stages seconds' a' carried' prepares failed =>
    obtain rfl := agree seconds' prepares.bucket
    obtain rfl := Except.ok.inj (prepares.analyzed.symm.trans analyzed)
    obtain ⟨visible, name, rfl⟩ :=
      failsOnly_build_elsewhere accepts.toPrepares built prepares _ failed
    cases second with
    | clickhouse => exact .inl ⟨rfl, name, rfl⟩
    | _ => cases visible

end

theorem not_dialectCapability {schema : Schema} {database : Sql.Database}
    {name construct : String} :
    ¬ (on schema database).Refuses query (.dialectCapability name construct) := by
  intro refuses
  obtain ⟨seconds, a, carried, prepares, failed⟩ := refuses.prepares rfl
  have able : (on schema database).dialect.Able := Sql.able_dialect database
  let Capable (fault : CompileError) : Prop := fault ≠ .dialectCapability name construct
  have means : StageBuilder.MeansFailOnly Capable _ :=
    prepares.means_of_able able needsArguments_builtin fun _ _ _ _ => nofun
  exact (prepares.ready_builder needsArguments_builtin).failsOnly_build means
    (fun _ _ => nofun) _ failed rfl

/-- What one database accepts, another one refuses only for a reason that databases do not share,
and no query asks for what a database cannot do. -/
theorem compile_elsewhere (schema : Schema) (query : Query) :
    (∀ (first second : Sql.Database) (pretty pretty' : Bool) (compiled : CompiledQuery)
        (fault : CompileError), (on schema first).compile query pretty = .ok compiled →
      (on schema second).compile query pretty' = .error fault →
        RefusesAlone schema query second fault) ∧
      ∀ (database : Sql.Database) (pretty : Bool) (name construct : String),
        (on schema database).compile query pretty ≠ .error (.dialectCapability name construct) := by
  refine ⟨fun first second pretty pretty' compiled fault accepted refused => ?_,
    fun database pretty name construct refused => ?_⟩
  · obtain ⟨⟨plan, columns⟩, planned, -⟩ := bind_pure_eq_ok.mp accepted
    exact refused_elsewhere planned (refuses_of_compile refused)
  · exact not_dialectCapability (refuses_of_compile refused)

end Compiler

/-- The latest load and the memory in use, for hosts under the name of the column of memory. -/
def Query.relabeledLoad : Query where
  selectors := [⟨.column "host", some "mem"⟩, ⟨.call "last" [.column "cpu"], some "latest"⟩,
    ⟨.call "sum" [.column "mem"], some "used"⟩]

namespace Compiler

theorem compile_relabeledLoad : ∃ compiled,
    (on .hosts .duckdb).compile .relabeledLoad true = .ok compiled ∧
      ∀ database ∈ [Sql.Database.clickhouse, .postgres], ∃ fault,
        (on .hosts database).compile .relabeledLoad true = .error fault ∧
          RefusesAlone .hosts .relabeledLoad database fault := by
  obtain ⟨compiled, ok⟩ : ∃ compiled,
      (on .hosts .duckdb).compile .relabeledLoad true = .ok compiled :=
    isSome_toOption.mp (by decide +kernel)
  have refused : ∀ database ∈ [Sql.Database.clickhouse, .postgres],
      ((on .hosts database).compile .relabeledLoad true).toOption.isSome = false := by
    decide +kernel
  refine ⟨compiled, ok, fun database member => ?_⟩
  cases failed : (on .hosts database).compile .relabeledLoad true with
  | ok other =>
    have is := refused database member
    rw [failed] at is
    cases is
  | error fault =>
    exact ⟨fault, rfl, (compile_elsewhere .hosts .relabeledLoad).1 _ _ _ _ _ _ ok failed⟩

end Compiler

end Rollup
