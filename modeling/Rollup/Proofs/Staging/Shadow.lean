import Rollup.Proofs.Plan
import Rollup.Proofs.Refusal
import Rollup.Proofs.Staging.Alone

/-! What reads the names that are made up.

Fields below the last stage have names that no query has chosen: fresh ones, or those of columns
that a single aggregate reads. Nothing else in their stage reads a column with such a name, but for
the column of time. It is read for the interval and by those who pick values by time, and that is
not counted when the name of a column is given to an aggregate of it.
-/

set_option autoImplicit false

namespace Rollup

namespace Compiler

/-- The column of time, where an aggregate of it has its name, and it is read for the interval or by
those who pick values by time. -/
def NamedAsTime (c : Compiler) (query : Query) (name : String) : Prop :=
  name = c.timeColumn query ∧ ∃ seconds a, bucketSeconds query = .ok seconds ∧
    c.analyze query ⟨c.schema, c.registry, seconds⟩ = .ok a ∧
    (∃ call ∈ a.calls, call.column? = some name) ∧
    (query.interval.isSome = true ∨ ∃ call ∈ a.calls, call.func.picksByTime = true)

variable {c : Compiler} {query : Query} {seconds : Option Int} {a : Analysis}
  {carried : List String}

section
variable (prepares : c.Prepares query seconds a carried)
include prepares

theorem Prepares.outputName_mem {output : Output} (member : output ∈ (c.sharing a).1) :
    output.name ∈ a.names := by
  obtain ⟨original, listed, from_⟩ :=
    related_of_mem_right (sharing_of_sound prepares.analysis).each member
  exact from_.name ▸ Compiler.outputName_mem prepares.analysis listed

theorem Prepares.fresh_sharedName {name : String}
    (member : name ∈ sharedNames (c.named a carried).2) (made : name ∉ a.names) :
    name ∉ c.takenNames a := by
  intro taken
  obtain ⟨output, listed, -, rfl⟩ := prepares.assigned.sharedUsed name member taken
  exact made (prepares.outputName_mem listed)

/-- A name of an aggregate that is that of no output is fresh, or that of a column that no other
aggregate reads. -/
theorem Prepares.slotName_origin {index : Nat} {slot : AggregateSlot} {name : String}
    (found : (c.named a carried).1[index]? = some slot) (given : slot.name = some name)
    (made : name ∉ a.names) : name ∉ c.takenNames a ∨
      slot.call.column? = some name ∧ (c.builder query seconds a carried).Alone index name := by
  have fits := fits_namingScope prepares.analysis prepares.stored prepares.carries
  obtain ⟨⟨names, traced⟩, -⟩ :=
    @NamingScope.traced_assign (c.namingScope a carried) (c.takenNames a) _ fits.unnamed
  have calls : ∀ {other : Nat} {slot : AggregateSlot}, (c.named a carried).1[other]? = some slot →
      (c.slots a.calls)[other]? = some slot.unnamed := by
    intro other slot there
    rw [← prepares.assigned.calls, List.getElem?_map, there]
    rfl
  cases traced.origin index slot name found given with
  | output output listed same => exact absurd (prepares.outputName_mem listed) (same ▸ made)
  | fresh free => exact .inl free
  | column column single once unread unused =>
    refine .inr ⟨column, ?_⟩
    have own := calls found
    simp only [NamingScope.readColumns, List.mem_append, List.mem_map, List.mem_flatMap,
      not_or] at unread
    simp only [NamingScope.inlined, List.mem_append, List.mem_flatMap, not_or] at once
    simp only [NamingScope.usedNames, List.mem_cons, List.mem_append, not_or] at unused
    constructor
    · intro other slot' there reads
      refine index_unique_of_countP single (calls there) own ?_ ?_
      · exact List.contains_iff_mem.mpr reads
      · exact List.contains_iff_mem.mpr (AggregateCall.mem_columns column)
    · exact fun key member same => unread.1 ⟨key, member, same⟩
    · exact unused.1
    · exact unused.2.1.2
    · intro condition member row refers
      refine unread.2 ⟨condition, List.mem_filter.mpr ⟨member, beq_iff_eq.mpr row⟩, ?_⟩
      exact List.mem_filterMap.mpr ⟨_, refers, rfl⟩
    · intro condition member group refers
      refine once.1 ⟨condition, List.mem_filter.mpr ⟨member, beq_iff_eq.mpr group⟩, ?_⟩
      exact List.mem_filterMap.mpr ⟨_, refers, rfl⟩
    · intro part member refers
      obtain ⟨origin, listed, same⟩ := prepares.shared_found member
      refine once.2 ⟨origin, listed, ?_⟩
      exact List.mem_filterMap.mpr ⟨_, same ▸ refers, rfl⟩

theorem Prepares.picks_of_windowed {slot : AggregateSlot} (member : slot ∈ (c.named a carried).1)
    (windowed : slot.windowed = true) : slot.call.func.picksByTime = true := by
  obtain ⟨call, -, same⟩ := List.mem_map.mp (prepares.slot_unnamed member)
  obtain rfl : call = slot.call := congrArg AggregateSlot.call same
  exact (Bool.and_eq_true_iff.mp ((congrArg AggregateSlot.windowed same).trans windowed)).1

theorem Prepares.head_chosen {name : String}
    (head : name ∈ (c.builder query seconds a carried).bucketNames ++
      (c.builder query seconds a carried).keyNames) : name ∈ a.names := by
  rw [prepares.names_builder]
  exact List.mem_append_left _ head

/-! ## All stages -/

theorem Prepares.namedAsTime {name : String}
    (reads : (c.builder query seconds a carried).ReadsTime name)
    (column : ∃ call ∈ a.calls, call.column? = some name) : c.NamedAsTime query name := by
  refine ⟨reads.1, seconds, a, prepares.bucket, prepares.analyzed, column, ?_⟩
  refine reads.2.imp (fun timed => ?_) ?_
  · simpa [builder, timeRange] using timed
  · rintro ⟨slot, listed, picks⟩
    exact ⟨slot.call, prepares.call_mem listed, picks⟩

variable {stages : List Stage} {stage : Stage} {index : Nat} {field : Field}
  (regular : c.dialect.Regular) (there : stage.fields[index]? = some field)
  (made : field.name ∉ a.names) (computed : field.expr ≠ .named field.name)
  {place : Option Nat} {e : Sql.Expr} (placed : (place, e) ∈ stage.placed)
  (apart : place ≠ some index) (read : field.name ∈ e.columns)
include there made

theorem Prepares.chosen_of_selects {scope : Scope}
    (selects : (c.builder query seconds a carried).Selects scope stage) : False := by
  refine made ?_
  rw [prepares.names_builder, ← selects.names]
  exact List.mem_map_of_mem (List.mem_of_getElem? there)

include computed

/-- A made up name of a stage below the last one is fresh, or that of the column of an aggregate. -/
theorem Prepares.origin_of_passes {scope : Scope}
    (passes : (c.builder query seconds a carried).Passes scope stage) :
    field.name ∉ c.takenNames a ∨
      ∃ other slot, (c.named a carried).1[other]? = some slot ∧ slot.windowed = false ∧
        slot.name = some field.name ∧ slot.call.column? = some field.name ∧
        (c.builder query seconds a carried).Alone other field.name := by
  rcases passes.made (fun head => made (prepares.head_chosen head)) computed
      (List.mem_of_getElem? there) with ⟨slot, listed, grouped, given⟩ | shared
  · obtain ⟨other, found⟩ := List.mem_iff_getElem?.mp listed
    refine (prepares.slotName_origin found given made).imp_right ?_
    rintro ⟨column, alone⟩
    exact ⟨other, slot, found, grouped, given, column, alone⟩
  · exact .inl (prepares.fresh_sharedName shared made)

include regular placed apart read

theorem Prepares.time_of_groups (other : field.name ≠ bucketName)
    (grouped : ∀ slot ∈ (c.named a carried).1, slot.windowed = false)
    (groups : (c.builder query seconds a carried).GroupsTable stage)
    (passes : (c.builder query seconds a carried).Passes .table stage) :
    c.NamedAsTime query field.name := by
  have sound := prepares.sound_builder
  have distinct := sound.distinct
  have one : stage.names.count field.name = 1 :=
    List.count_eq_one_of_mem (distinct.passes passes)
      (List.mem_map_of_mem (List.mem_of_getElem? there))
  have readable := StageBuilder.readable_table regular sound.stored sound.refers grouped
  rcases prepares.origin_of_passes there made computed passes with
    fresh | ⟨own, slot, found, -, given, column, alone⟩
  · have base : stage.IsBase c.schema := by
      refine groups.isBase rfl regular sound.stored sound.refers grouped
        (readable.fields sound.refers (passes.isField (by simp))) ?_
      rw [passes.names, List.append_assoc]
      exact List.subset_append_left _ _
    exact absurd read (base.unread (fun stored => fresh (taken_of_isStored stored)) other placed)
  · have call := prepares.call_mem (List.mem_of_getElem? found)
    refine prepares.namedAsTime ?_ ⟨slot.call, call, column⟩
    refine alone.groupsTable regular sound.stored.time sound.refers found given grouped groups
      passes placed ?_ read
    rintro place field' rfl there' same
    exact apart (congrArg some (Stage.place_unique one there' there same rfl))

theorem Prepares.time_of_windows (other : field.name ≠ bucketName)
    (windows : (c.builder query seconds a carried).Windows stage) :
    c.NamedAsTime query field.name := by
  have sound := prepares.sound_builder
  have distinct := sound.distinct
  have one := distinct.count_windows windows
    (List.mem_map_of_mem (List.mem_of_getElem? there)) other
  obtain ⟨slot, listed, -, given⟩ := windows.made
    (fun head => made (prepares.head_chosen head)) computed (List.mem_of_getElem? there)
  obtain ⟨own, found⟩ := List.mem_iff_getElem?.mp listed
  rcases prepares.slotName_origin found given made with fresh | ⟨column, alone⟩
  · have base := windows.isBase rfl regular sound.stored sound.refers
    exact absurd read (base.unread (fun stored => fresh (taken_of_isStored stored)) other placed)
  · refine prepares.namedAsTime ?_ ⟨slot.call, prepares.call_mem listed, column⟩
    refine alone.windows regular sound.stored.time sound.refers found given
      (fun _ => prepares.picks_of_windowed) windows placed ?_ read
    rintro place field' rfl there' same
    exact apart (congrArg some (Stage.place_unique one there' there same rfl))

omit apart in
/-- Behind a window stage nothing reads a made up name. -/
theorem Prepares.unread_of_regroups (windowed : (c.layoutOf a).isWindowed = true) {first : Stage}
    (windows : (c.builder query seconds a carried).Windows first)
    (groups : (c.builder query seconds a carried).GroupsWindow stage)
    (passes : (c.builder query seconds a carried).Passes .window stage) : False := by
  have sound := prepares.sound_builder
  have carries := sound.carries windowed
  have readable := StageBuilder.readable_window regular sound.refers carries windows
  have above := groups.isAbove windows sound.refers readable
    (readable.fields sound.refers (passes.isField (by simp))) []
  rcases prepares.origin_of_passes there made computed passes with
    fresh | ⟨own, slot, found, grouped, -, column, alone⟩
  · refine above.unread ?_ placed read
    rw [windows.names, List.append_assoc]
    intro below
    rcases List.mem_append.mp below with head | below
    · exact made (prepares.head_chosen head)
    rcases List.mem_append.mp below with passed | result
    · exact fresh (taken_of_isStored (sound.stored.carried _ passed))
    · -- A field with the name of a window result is this result.
      obtain ⟨slot, listed, given⟩ := mem_fieldNames.mp result
      obtain ⟨listed, windowed⟩ := StageBuilder.mem_windowSlots.mp listed
      have result := passes.window_mem (by simp) listed windowed given
      have same := List.inj_on_of_nodup_map (sound.distinct.passes passes)
        (List.mem_of_getElem? there) result rfl
      exact computed (congrArg Field.expr same)
  · rcases carries slot (List.mem_of_getElem? found) grouped field.name
      (List.mem_append_left _ (AggregateCall.mem_columns column)) with passed | key
    · exact alone.carried passed
    · exact alone.keys _ key rfl

/-- Where something reads the made up name of a field beside it, this is the name of the time. -/
theorem Prepares.time_of_built (other : field.name ≠ bucketName)
    (built : (c.builder query seconds a carried).Built (c.layoutOf a) stages)
    (listed : stage ∈ stages) : c.NamedAsTime query field.name := by
  cases built.isStage listed with
  | flat _ _ selects => exact (prepares.chosen_of_selects there made selects).elim
  | groups unwindowed groups passes =>
    exact prepares.time_of_groups regular there made computed placed apart read other
      (prepares.sound_builder.grouped unwindowed) groups passes
  | windows windows =>
    exact prepares.time_of_windows regular there made computed placed apart read other windows
  | regroups _ _ _ _ selects => exact (prepares.chosen_of_selects there made selects).elim
  | passes _ windowed windows groups passes =>
    exact (prepares.unread_of_regroups regular there made computed placed read windowed windows
      groups passes).elim
  | last computes => exact (prepares.chosen_of_selects there made computes.toSelects).elim

end

/-! ## Names that are chosen -/

/-- The names that a query chooses: those of its selectors and of its keys. -/
def Chooses (c : Compiler) (query : Query) (name : String) : Prop :=
  (∃ selector ∈ query.selectors, selector.outputName? = some name) ∨
    ∃ seconds a, bucketSeconds query = .ok seconds ∧
      c.analyze query ⟨c.schema, c.registry, seconds⟩ = .ok a ∧ ∃ key ∈ a.keys, key.name = name

/-- A field that computes something under a name that no query has chosen. -/
structure Invents (c : Compiler) (query : Query) (field : Field) : Prop where
  unchosen : ¬ c.Chooses query field.name
  other : field.name ≠ bucketName
  computed : field.expr ≠ .named field.name

theorem Prepares.chosen (prepares : c.Prepares query seconds a carried) {name : String}
    (member : name ∈ a.names) (other : name ≠ bucketName) : c.Chooses query name := by
  rw [prepares.analysis.names] at member
  rcases List.mem_append.mp member with bucket | member
  · split at bucket
    · exact absurd (List.mem_singleton.mp bucket) other
    · cases bucket
  rcases List.mem_append.mp member with member | member
  · obtain ⟨key, listed, rfl⟩ := List.mem_map.mp member
    exact .inr ⟨seconds, a, prepares.bucket, prepares.analyzed, key, listed, rfl⟩
  · obtain ⟨output, listed, rfl⟩ := List.mem_map.mp member
    exact .inl (selector_of_output prepares.analyzed (List.mem_of_mem_filter listed))

/-- The names that are made up hide nothing, unless one of them is the name of the time: queries are
refused for the names that they choose, and in a plan nothing but its own field reads a made up
name. -/
theorem invented_plan (regular : c.dialect.Regular) :
    (∀ name dialect, c.plan query = .error (.shadowedColumn name dialect) →
      c.Chooses query name ∨ c.NamedAsTime query name) ∧
    ∀ plan, c.plan query = .ok plan → ∀ stage ∈ plan.stages, ∀ index field,
      stage.fields[index]? = some field → c.Invents query field →
      stage.ReadsBeside index field.name → c.NamedAsTime query field.name := by
  constructor
  · intro name dialect refused
    obtain ⟨seconds, a, carried, stages, prepares, built, -, -, stage, listed, field, hides, rfl⟩ :=
      built_of_shadowedColumn refused
    obtain ⟨index, there, computed, other, place, e, placed, apart, read⟩ :=
      StageBuilder.reads_of_shadowing? hides
    by_cases chosen : field.name ∈ a.names
    · exact .inl (prepares.chosen chosen other)
    · exact .inr (prepares.time_of_built regular there chosen computed placed apart read other built
        listed)
  · intro plan ok stage member index field there invents ⟨place, e, placed, apart, read⟩
    obtain ⟨seconds, a, carried, stages, orderBy, accepts⟩ := accepts_of_plan ok
    obtain ⟨-, -, built⟩ := StageBuilder.built_build accepts.built
    have unchosen : field.name ∉ a.names := fun chosen =>
      invents.unchosen (accepts.chosen chosen invents.other)
    rw [accepts.plan] at member
    obtain ⟨origin, listed, finished⟩ := mem_finish member
    -- Sorting and cutting off rows leave the fields and what is placed as they are.
    have there : origin.fields[index]? = some field := by
      rcases finished with rfl | rfl <;> exact there
    have placed : (place, e) ∈ origin.placed := by
      rcases finished with rfl | rfl <;> exact placed
    exact accepts.time_of_built regular there unchosen invents.computed placed apart read
      invents.other built listed

end Compiler

def Query.swappedLoads : Query where
  selectors := [⟨.call "sum" [.column "mem"], some "cpu"⟩,
    ⟨.call "sum" [.column "cpu"], some "mem"⟩]

def Query.nextTime : Query where
  selectors := [⟨.binary .add (.call "max" [.column "time"]) (.literal (.int 1)), some "next"⟩]
  groupBy := ["host"]
  interval := some ⟨⟨0, 0⟩, ⟨3600, 0⟩, some ⟨60, .minutes⟩, none⟩

namespace Compiler

theorem invented_hosts :
    (clickhouseHosts.plan .swappedLoads = .error (.shadowedColumn "cpu" "clickhouse") ∧
      (clickhouseHosts.Chooses .swappedLoads "cpu" ∨
        clickhouseHosts.NamedAsTime .swappedLoads "cpu")) ∧
    ∃ plan, clickhouseHosts.plan .risingLoad = .ok plan ∧ ∀ stage ∈ plan.stages, ∀ index field,
      stage.fields[index]? = some field → clickhouseHosts.Invents .risingLoad field →
      stage.ReadsBeside index field.name → clickhouseHosts.NamedAsTime .risingLoad field.name := by
  have regular : clickhouseHosts.dialect.Regular := Sql.regular_dialect .clickhouse
  have refused : (clickhouseHosts.plan .swappedLoads).map (fun _ => ()) =
      .error (.shadowedColumn "cpu" "clickhouse") := by decide +kernel
  have refused := map_eq_error.mp refused
  obtain ⟨plan, ok⟩ := plan_clickhouseRisingLoad
  exact ⟨⟨refused, (invented_plan regular).1 _ _ refused⟩, plan, ok, (invented_plan regular).2 _ ok⟩

/-- The latest time gets the name of the column of time, which the condition on rows reads. -/
theorem shadowed_nextTime :
    clickhouseHosts.plan .nextTime = .error (.shadowedColumn "time" "clickhouse") ∧
      ¬ clickhouseHosts.Chooses .nextTime "time" := by
  have refused : (clickhouseHosts.plan .nextTime).map (fun _ => ()) =
      .error (.shadowedColumn "time" "clickhouse") := by decide +kernel
  refine ⟨map_eq_error.mp refused, ?_⟩
  have selectors : ∀ selector ∈ Query.nextTime.selectors,
      selector.outputName? ≠ some "time" := by decide
  have keys : ((clickhouseHosts.analyze .nextTime
      ⟨clickhouseHosts.schema, clickhouseHosts.registry, some 60⟩).map fun a => a.keys) =
        .ok [⟨"host", "host"⟩] := by decide +kernel
  rintro (⟨selector, listed, named⟩ | ⟨seconds, a, bucket, analyzed, key, listed, named⟩)
  · exact selectors selector listed named
  · cases bucket
    rw [analyzed] at keys
    have keys : a.keys = [⟨"host", "host"⟩] := Except.ok.inj keys
    rw [keys, List.mem_singleton] at listed
    rw [listed] at named
    exact absurd named (by decide)

end Compiler

end Rollup
