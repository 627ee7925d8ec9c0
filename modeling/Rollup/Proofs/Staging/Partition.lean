import Mathlib.Data.Set.Function
import Mathlib.Logic.Function.Basic
import Rollup.Proofs.Compiler
import Rollup.Proofs.Plan

/-! Grouping rows with window results.

A window function looks at the rows with the same keys in the same bucket, and has the same value in
all of them. So the groups of rows that agree on the keys, the bucket and all window results are the
groups of rows that agree on the keys and the bucket.
-/

set_option autoImplicit false

namespace Rollup

/-- What the columns of a row are worth. -/
abbrev Row (Value : Type) := String → Option Value

/-- The rows that agree with a row on expressions. -/
def agreeing {ι Value : Type} (value : ι → Sql.Expr → Option Value) (kept : Set ι)
    (es : List Sql.Expr) (index : ι) : Set ι :=
  {other ∈ kept | ∀ e ∈ es, value other e = value index e}

-- Nothing is assumed of operators, functions and aggregates: an interpretation may give them any
-- values. Only columns and window functions are tied to what they look at.

/-- What expressions are worth, and which conditions hold, in the rows of any table. The same row
may occur several times, so rows are known by an index. -/
structure Interpretation (Value : Type) where
  /-- The value in a row where some rows are kept, which window functions look at. -/
  value {ι : Type} (table : ι → Row Value) (kept : Set ι) (index : ι) (e : Sql.Expr) : Option Value
  holds {ι : Type} (table : ι → Row Value) (index : ι) (condition : Sql.Expr) : Prop
  named {ι : Type} (table : ι → Row Value) (kept : Set ι) (index : ι) (name : String) :
    value table kept index (.named name) = table index name
  /-- A window function is worth the same where it looks at the same rows. -/
  window {ι : Type} (table : ι → Row Value) (kept : Set ι) (i j : ι) (call : Sql.Expr)
    (partitionBy : List Sql.Expr) (orderBy : List (Sql.SortKey Sql.Expr)) :
    i ∈ kept → j ∈ kept →
      agreeing (value table kept) kept partitionBy i =
        agreeing (value table kept) kept partitionBy j →
      value table kept i (.window call partitionBy orderBy) =
        value table kept j (.window call partitionBy orderBy)

namespace Interpretation
variable {Value ι : Type} (I : Interpretation Value) (table : ι → Row Value)

instance : Inhabited (Interpretation Value) where
  default := {
    value table _ index e := match e with
      | .column none name => table index name
      | _ => none
    holds _ _ _ := True
    named _ _ _ _ := rfl
    window _ _ _ _ _ _ _ _ _ _ := rfl }

/-- The rows that pass the condition of a stage. -/
def kept (stage : Stage) : Set ι :=
  {index | ∀ condition, stage.filter = some condition → I.holds table index condition}

/-- The value of an expression in a row that a stage reads. -/
def valueIn (stage : Stage) (index : ι) (e : Sql.Expr) : Option Value :=
  I.value table (I.kept table stage) index e

/-- The rows that a stage makes of the rows that it keeps. -/
def made (stage : Stage) (index : I.kept table stage) : Row Value := fun name =>
  (stage.expr? name).bind (I.valueIn table stage index)

/-- The group of a row that a stage reads. -/
def group (stage : Stage) (index : ι) : Set ι :=
  agreeing (I.valueIn table stage) (I.kept table stage) stage.groupBy index

/-- The keys and the bucket of a row. -/
def place (keys : List GroupKey) (bucket : Option Sql.Expr) (stage : Stage)
    (index : I.kept table stage) : List (Option Value) :=
  keys.map (fun key => table index key.column) ++
    bucket.toList.map (I.valueIn table stage index)

end Interpretation

/-- The rows of a first stage are grouped by the keys and the bucket in a second one. -/
structure Regroups {Value ι : Type} (I : Interpretation Value) (table : ι → Row Value)
    (keys : List GroupKey) (bucket : Option Sql.Expr) (first second : Stage) : Prop where
  all : I.kept (I.made table first) second = Set.univ
  agree : ∀ i j : I.kept table first,
    (∀ e ∈ second.groupBy,
      I.valueIn (I.made table first) second i e = I.valueIn (I.made table first) second j e) ↔
    (∀ key ∈ keys, table i key.column = table j key.column) ∧
      ∀ e, bucket = some e → I.valueIn table first i e = I.valueIn table first j e
  groups : ∃ placeOf : Set (I.kept table first) → List (Option Value),
    Set.BijOn placeOf (Set.range (I.group (I.made table first) second))
      (Set.range (I.place table keys bucket first)) ∧
    ∀ index, placeOf (I.group (I.made table first) second index) =
      I.place table keys bucket first index

namespace Interpretation
variable {Value ι : Type} {I : Interpretation Value} {table : ι → Row Value}

theorem place_eq_iff {keys : List GroupKey} {bucket : Option Sql.Expr} {stage : Stage}
    {i j : I.kept table stage} :
    I.place table keys bucket stage i = I.place table keys bucket stage j ↔
      (∀ key ∈ keys, table i key.column = table j key.column) ∧
        ∀ e, bucket = some e → I.valueIn table stage i e = I.valueIn table stage j e := by
  constructor
  · intro same
    obtain ⟨keyed, started⟩ := List.append_inj same (by simp)
    exact ⟨List.map_inj_left.mp keyed, fun e there =>
      List.map_inj_left.mp started e (Option.mem_toList.mpr there)⟩
  · rintro ⟨keyed, started⟩
    rw [place, place, List.map_inj_left.mpr keyed, List.map_inj_left.mpr fun e member =>
      started e (Option.mem_toList.mp member)]

theorem group_eq_iff {stage : Stage} (all : I.kept table stage = Set.univ) {i j : ι} :
    I.group table stage i = I.group table stage j ↔
      ∀ e ∈ stage.groupBy, I.valueIn table stage i e = I.valueIn table stage j e := by
  constructor
  · intro same
    have own : i ∈ I.group table stage i := ⟨all ▸ Set.mem_univ i, fun _ _ => rfl⟩
    rw [same] at own
    exact own.2
  · intro agree
    ext other
    have each : ∀ e ∈ stage.groupBy, I.valueIn table stage other e = I.valueIn table stage i e ↔
        I.valueIn table stage other e = I.valueIn table stage j e := fun e member => by
      rw [agree e member]
    exact and_congr_right fun _ => forall₂_congr each

theorem exists_bijOn {α β γ : Type} [Inhabited γ] {f : α → β} {g : α → γ}
    (same : ∀ i j, f i = f j ↔ g i = g j) :
    ∃ h : β → γ, Set.BijOn h (Set.range f) (Set.range g) ∧ ∀ i, h (f i) = g i := by
  have factors : g.FactorsThrough f := fun i j equal => (same i j).mp equal
  have each : ∀ i, Function.extend f g (fun _ => default) (f i) = g i :=
    factors.extend_apply _
  -- Well defined by the one direction of the hypothesis, injective by the other.
  refine ⟨Function.extend f g fun _ => default, ⟨?_, ?_, ?_⟩, each⟩
  · rintro _ ⟨i, rfl⟩
    exact ⟨i, (each i).symm⟩
  · rintro _ ⟨i, rfl⟩ _ ⟨j, rfl⟩ equal
    rw [each, each] at equal
    exact (same i j).mpr equal
  · rintro _ ⟨i, rfl⟩
    exact ⟨f i, ⟨i, rfl⟩, each i⟩

end Interpretation

namespace StageBuilder
variable {b : StageBuilder} {first second : Stage} {Value ι : Type} {I : Interpretation Value}
  {table : ι → Row Value} {bucket : Option Sql.Expr}

section
variable (windows : b.Windows first) (names : first.names.Nodup)
include windows names

theorem made_key {key : GroupKey} (member : key ∈ b.keys) (index : I.kept table first) :
    I.made table first index key.name = table index key.column := by
  rw [Interpretation.made, Stage.expr?_of_mem names (windows.key_mem member), Option.bind_some]
  exact I.named table _ _ _

theorem made_bucket (start : b.bucketStart? = .ok bucket) {e : Sql.Expr} (there : bucket = some e)
    (index : I.kept table first) :
    I.made table first index bucketName = I.valueIn table first index e := by
  obtain ⟨bucket', start', member⟩ := windows.bucket_mem
  cases start.symm.trans start'
  rw [Interpretation.made, Stage.expr?_of_mem names (member e there), Option.bind_some]

/-- Rows with the same keys in the same bucket have the same window results. -/
theorem made_window (start : b.bucketStart? = .ok bucket) {i j : I.kept table first}
    (keyed : ∀ key ∈ b.keys, table i key.column = table j key.column)
    (started : ∀ e, bucket = some e → I.valueIn table first i e = I.valueIn table first j e)
    {name : String} (member : name ∈ fieldNames b.windowSlots) :
    I.made table first i name = I.made table first j name := by
  obtain ⟨slot, listed, named⟩ := mem_fieldNames.mp member
  obtain ⟨listed, windowed⟩ := mem_windowSlots.mp listed
  obtain ⟨bucket', e, start', written, field⟩ := windows.slot_mem listed windowed named
  cases start.symm.trans start'
  obtain ⟨picked, orderBy, rfl⟩ := Renderer.window_of_windowCall written
  have agree : ∀ e ∈ b.partition bucket,
      I.valueIn table first i e = I.valueIn table first j e := by
    intro e part
    rcases List.mem_append.mp part with column | there
    · obtain ⟨key, listed, rfl⟩ := List.mem_map.mp column
      simp only [Interpretation.valueIn, I.named]
      exact keyed key listed
    · exact started e (Option.mem_toList.mp there)
  -- The two rows have the same others in their partitions.
  have partitions : agreeing (I.valueIn table first) (I.kept table first) (b.partition bucket) i =
      agreeing (I.valueIn table first) (I.kept table first) (b.partition bucket) j := by
    ext other
    refine and_congr_right fun _ => forall₂_congr fun e part => ?_
    rw [agree e part]
  simp only [Interpretation.made, Stage.expr?_of_mem names field, Option.bind_some]
  exact I.window table _ i j picked _ orderBy i.2 j.2 partitions

theorem agree_regroup (groups : b.GroupsWindow second) (start : b.bucketStart? = .ok bucket)
    (i j : I.kept table first) :
    (∀ e ∈ second.groupBy,
      I.valueIn (I.made table first) second i e = I.valueIn (I.made table first) second j e) ↔
    (∀ key ∈ b.keys, table i key.column = table j key.column) ∧
      ∀ e, bucket = some e → I.valueIn table first i e = I.valueIn table first j e := by
  have column : ∀ (index : I.kept table first) (name : String),
      I.valueIn (I.made table first) second index (.named name) = I.made table first index name :=
    fun index name => I.named _ _ index name
  have bucketed : ∀ e, bucket = some e → .named bucketName ∈ b.bucketColumn := by
    rintro e rfl
    have is : b.isBucketed = true := (isSome_bucket start).symm
    exact mem_bucketColumn.mpr ⟨is, rfl⟩
  rw [groups.groupBy]
  -- Groups are not merged, since keys and bucket are among what is grouped by. They are not split,
  -- since the window results that are also grouped by depend on these two.
  constructor
  · intro agree
    refine ⟨fun key member => ?_, fun e there => ?_⟩
    · have same := agree (.named key.name) (List.mem_append_left _ (List.mem_append_left _
        (List.mem_map_of_mem (f := fun key : GroupKey => Sql.Expr.named key.name) member)))
      rwa [column, column, made_key windows names member, made_key windows names member] at same
    · have same := agree (.named bucketName) (List.mem_append_right _ (bucketed e there))
      rwa [column, column, made_bucket windows names start there,
        made_bucket windows names start there] at same
  · rintro ⟨keyed, started⟩ e member
    rcases List.mem_append.mp member with member | member
    · rcases List.mem_append.mp member with passed | result
      · obtain ⟨key, listed, rfl⟩ := List.mem_map.mp passed
        rw [column, column, made_key windows names listed, made_key windows names listed]
        exact keyed key listed
      · obtain ⟨name, given, rfl⟩ := List.mem_map.mp result
        rw [column, column]
        exact made_window windows names start keyed started given
    · obtain ⟨is, rfl⟩ := mem_bucketColumn.mp member
      obtain ⟨e, there⟩ := Option.isSome_iff_exists.mp ((isSome_bucket start).trans is)
      rw [column, column, made_bucket windows names start there,
        made_bucket windows names start there]
      exact started e there

theorem regroups (groups : b.GroupsWindow second) (start : b.bucketStart? = .ok bucket) :
    Regroups I table b.keys bucket first second := by
  -- The second stage has no condition on rows, so its groups are groups of all rows made.
  have all : I.kept (I.made table first) second = Set.univ := by
    refine Set.eq_univ_of_forall fun index condition there => ?_
    rw [groups.filter] at there
    cases there
  refine ⟨all, agree_regroup windows names groups start, Interpretation.exists_bijOn fun i j => ?_⟩
  rw [Interpretation.group_eq_iff all, Interpretation.place_eq_iff]
  exact agree_regroup windows names groups start i j

end

end StageBuilder

namespace Compiler

/-- Grouping the rows of a window stage neither splits nor merges the groups of a query. -/
theorem regroups_plan {c : Compiler} {query : Query} {seconds : Option Int} {a : Analysis}
    {plan : Plan} (visible : bucketName ∉ c.schema.names)
    (bucket : bucketSeconds query = .ok seconds)
    (analyzed : c.analyze query ⟨c.schema, c.registry, seconds⟩ = .ok a)
    (windowed : (c.layoutOf a).isWindowed = true) (ok : c.plan query = .ok plan) :
    ∃ first second rest start, plan.stages = first :: second :: rest ∧
      (c.unstaged query seconds a).bucketStart? = .ok start ∧
      ∀ (Value ι : Type) (I : Interpretation Value) (table : ι → Row Value),
        Regroups I table a.keys start first second := by
  obtain ⟨seconds', a', carried, stages, orderBy, accepts⟩ := accepts_of_plan ok
  cases bucket.symm.trans accepts.bucket
  cases analyzed.symm.trans accepts.analyzed
  let b := c.builder query seconds a carried
  have distinct : b.Distinct := accepts.distinct_builder
  have unhidden : bucketName ∉ b.carried := fun member =>
    visible (mem_names_of_isStored (accepts.stored_builder.carried bucketName member))
  -- The start of the bucket does not depend on names or on what is shared.
  have regrouped : ∀ {first second : Stage}, b.Windows first → b.GroupsWindow second →
      ∃ start, (c.unstaged query seconds a).bucketStart? = .ok start ∧
        ∀ (Value ι : Type) (I : Interpretation Value) (table : ι → Row Value),
          Regroups I table a.keys start first second := by
    intro first second windows groups
    obtain ⟨start, at_, -⟩ := windows.bucket_mem
    exact ⟨start, at_, fun Value ι I table => StageBuilder.regroups windows
      (distinct.windows windows unhidden) groups at_⟩
  obtain ⟨-, -, built⟩ := StageBuilder.built_build accepts.built
  rw [accepts.plan]
  generalize c.layoutOf a = layout at built windowed
  cases built with
  | flat => cases windowed
  | computed => cases windowed
  | windowed windows groups selects =>
    obtain ⟨start, at_, each⟩ := regrouped windows groups
    refine ⟨_, _, [], start, rfl, at_, fun Value ι I table => ?_⟩
    have both := each Value ι I table
    exact ⟨both.all, both.agree, both.groups⟩
  | windowedComputed windows groups passes computes =>
    obtain ⟨start, at_, each⟩ := regrouped windows groups
    exact ⟨_, _, _, start, rfl, at_, each⟩

theorem regroups_risingLoad : ∃ seconds a plan, bucketSeconds .risingLoad = .ok seconds ∧
    hosts.analyze .risingLoad ⟨.hosts, hosts.registry, seconds⟩ = .ok a ∧
    hosts.plan .risingLoad = .ok plan ∧
    ∃ first second rest start, plan.stages = first :: second :: rest ∧
      (hosts.unstaged .risingLoad seconds a).bucketStart? = .ok start ∧
      ∀ (Value ι : Type) (I : Interpretation Value) (table : ι → Row Value),
        Regroups I table a.keys start first second := by
  obtain ⟨plan, ok⟩ := plan_risingLoad
  have computed : ((hosts.analyze .risingLoad ⟨.hosts, hosts.registry, some 60⟩).toOption.any
      fun a => (hosts.layoutOf a).isWindowed) = true := by decide +kernel
  obtain ⟨a, analyzed, windowed⟩ := any_toOption.mp computed
  exact ⟨some 60, a, plan, rfl, analyzed, ok,
    regroups_plan (by decide) rfl analyzed windowed ok⟩

end Compiler

end Rollup
