import Rollup.Proofs.Compiler
import Rollup.Proofs.Staging.Origin

/-! Names of fields capture no columns.

Where the names of fields are visible in the clauses beside them, a name that is read may mean a
field or a column of the source. It makes no difference where the field is nothing but that column.
A check of the stages sees to that, but it passes over the bucket and over the condition of the last
stage. There the names themselves are enough: an output has the name of a field below it only if it
is that field.
-/

set_option autoImplicit false

namespace Rollup

/-! ## What a name means -/

namespace Stage

/-- The fields whose names can be meant at a place: in a field all others, in a clause all. -/
def beside (stage : Stage) : Option Nat → List Field
  | some index => stage.fields.eraseIdx index
  | none => stage.fields

/-- The expressions but for the order, each with its place. -/
def placed (stage : Stage) : List (Option Nat × Sql.Expr) :=
  stage.fields.mapIdx (fun index field => (some index, field.expr)) ++
    (stage.groupBy ++ stage.having.toList ++ stage.filter.toList).map fun e => (none, e)

/-- The expression of a field that is meant by a name at a place. -/
def aliased? (stage : Stage) (place : Option Nat) (name : String) : Option Sql.Expr :=
  ((stage.beside place).find? (·.name == name)).map (·.expr)

def sourced? (source : String → Bool) (name : String) : Option Sql.Expr :=
  if source name then some (.named name) else none

/-- Names mean the same whether fields come first or columns of the source. -/
def Uncaptured (source : String → Bool) (stage : Stage) : Prop :=
  ∀ place e, (place, e) ∈ stage.placed → ∀ name ∈ e.columns,
    (stage.aliased? place name).or (sourced? source name) =
      (sourced? source name).or (stage.aliased? place name)

variable {stage : Stage} {source : String → Bool}

theorem mem_beside {place : Option Nat} {field : Field} : field ∈ stage.beside place ↔
    ∃ index, place ≠ some index ∧ stage.fields[index]? = some field := by
  cases place with
  | none => simp [beside, List.mem_iff_getElem?]
  | some own =>
    rw [beside, List.mem_eraseIdx_iff_getElem?]
    simp [eq_comm]

theorem mem_placed {place : Option Nat} {e : Sql.Expr} : (place, e) ∈ stage.placed ↔
    (∃ index field, stage.fields[index]? = some field ∧ place = some index ∧ field.expr = e) ∨
      place = none ∧ (e ∈ stage.groupBy ∨ stage.having = some e ∨ stage.filter = some e) := by
  simp only [placed, List.mem_append, List.mem_mapIdx, List.mem_map, Option.mem_toList,
    Prod.mk.injEq, or_assoc]
  constructor
  · rintro (⟨index, bound, rfl, rfl⟩ | ⟨x, listed, rfl, rfl⟩)
    · exact .inl ⟨index, _, List.getElem?_eq_getElem bound, rfl, rfl⟩
    · exact .inr ⟨rfl, listed⟩
  · rintro (⟨index, field, found, rfl, rfl⟩ | ⟨rfl, listed⟩)
    · obtain ⟨bound, rfl⟩ := List.getElem?_eq_some_iff.mp found
      exact .inl ⟨index, bound, rfl, rfl⟩
    · exact .inr ⟨e, listed, rfl, rfl⟩

/-- A field that is nothing but the column of its name captures nothing. -/
theorem uncaptured_of_named (each : ∀ index field, stage.fields[index]? = some field →
      source field.name = true → field.expr = .named field.name ∨
        ∀ place e, (place, e) ∈ stage.placed → place ≠ some index → field.name ∉ e.columns) :
    stage.Uncaptured source := by
  intro place e placed name read
  cases known : source name with
  | false => simp [sourced?, known]
  | true =>
    cases found : (stage.beside place).find? (·.name == name) with
    | none => simp [aliased?, found]
    | some field =>
      have same : field.name = name := by simpa using List.find?_some found
      obtain ⟨index, apart, listed⟩ := mem_beside.mp (List.mem_of_find?_eq_some found)
      subst same
      rcases each index field listed known with named | unread
      · simp [aliased?, sourced?, found, known, named]
      · exact absurd read (unread place e placed apart)

theorem Uncaptured.finish (uncaptured : stage.Uncaptured source)
    {orderBy : List (Sql.SortKey Sql.Expr)} {rows : Option Sql.RowWindow} :
    Uncaptured source { stage with orderBy, rows } := uncaptured

def IsChecked (stage : Stage) : Prop :=
  stage.filter = none ∨ ∃ table, stage.source = .table table

theorem mem_columnsReadBesides (checked : stage.IsChecked) {place : Option Nat} {e : Sql.Expr}
    (placed : (place, e) ∈ stage.placed) {index : Nat} (apart : place ≠ some index) {name : String}
    (read : name ∈ e.columns) : name ∈ stage.columnsReadBesides index := by
  simp only [columnsReadBesides, mem_firstSeen, List.mem_append, List.mem_flatMap]
  rcases mem_placed.mp placed with ⟨own, field, there, rfl, rfl⟩ | ⟨rfl, member | tested | filtered⟩
  · refine .inl (.inl (.inl ⟨field, ?_, read⟩))
    exact List.mem_eraseIdx_iff_getElem?.mpr ⟨own, fun same => apart (congrArg some same), there⟩
  · exact .inl (.inl (.inr ⟨e, member, read⟩))
  · refine .inl (.inr ?_)
    rw [havingColumns, tested]
    exact read
  · refine .inr ?_
    rcases checked with absent | ⟨table, is⟩
    · cases filtered.symm.trans absent
    · rw [filterColumns, is, filtered]
      exact read

end Stage

namespace StageBuilder
variable {b : StageBuilder} {stage below : Stage} {source : String → Bool} {scope : Scope}

theorem expr_of_passesOn {field : Field} (is : passesOn field = true) :
    field.expr = .named field.name := by
  unfold passesOn at is
  split at is
  · rename_i name same
    rw [same, ← beq_iff_eq.mp is]
    rfl
  · cases is

/-! ## The check -/

/-- What the check of names establishes. -/
theorem unread_of_shadowing? (visible : shadowing? stage = none) {index : Nat} {field : Field}
    (found : stage.fields[index]? = some field) :
    passesOn field = true ∨ field.name = bucketName ∨
      field.name ∉ stage.columnsReadBesides index := by
  have tested := List.find?_eq_none.mp (Option.map_eq_none_iff.mp visible) (field, index)
    (List.mem_zipIdx_iff_getElem?.mpr found)
  simpa [or_iff_not_imp_left] using tested

theorem uncaptured_of_check (visible : shadowing? stage = none) (checked : stage.IsChecked)
    (bucket : source bucketName = true → ∀ field ∈ stage.fields, field.name = bucketName →
      field.expr = .named bucketName) : stage.Uncaptured source := by
  refine Stage.uncaptured_of_named fun index field found known => ?_
  rcases unread_of_shadowing? visible found with passes | same | unread
  · exact .inl (expr_of_passesOn passes)
  · rw [same] at known ⊢
    exact .inl (bucket known field (List.mem_of_getElem? found) same)
  · exact .inr fun place e placed apart read =>
      unread (Stage.mem_columnsReadBesides checked placed apart read)

theorem visible_of_check {stages : List Stage} (visible : b.renderer.dialect.aliasInWhere = true)
    (ok : b.checkVisibility stages = .ok ()) : ∀ stage ∈ stages, shadowing? stage = none := by
  unfold checkVisibility at ok
  rw [if_neg (by simp [visible])] at ok
  split at ok
  · cases ok
  · rename_i absent
    exact List.findSome?_eq_none_iff.mp absent

/-! ## Outputs -/

theorem Distinct.expr_of_slotName (distinct : b.Distinct) {output : Output}
    (member : output ∈ b.selected) {slot : AggregateSlot} (listed : slot ∈ b.renderer.slots)
    (given : slot.name = some output.name) (late : scope = .groups ∨ slot.windowed = true)
    {x : Sql.Expr} (ok : b.renderer.render scope output.expr = .ok x) : x = .named output.name := by
  obtain ⟨index, found⟩ := List.mem_iff_getElem?.mp listed
  rw [distinct.slotOutput index slot _ found given output member rfl] at ok
  obtain ⟨slot', found', ok⟩ := Renderer.aggregate_eq_ok.mp ok
  cases found.symm.trans found'
  obtain ⟨name, given', rfl⟩ := (Renderer.slotExpr_of_name late).mp ok
  cases given.symm.trans given'
  rfl

def SharesOutputs (b : StageBuilder) : Prop :=
  ∀ index part name, b.renderer.shared[index]? = some part → part.name = some name →
    ∀ output ∈ b.selected, output.name = name → output.expr = .reference (.shared index)

theorem SharesOutputs.expr_of_sharedName (shares : b.SharesOutputs) {output : Output}
    (member : output ∈ b.selected) (named : output.name ∈ sharedNames b.renderer.shared)
    {x : Sql.Expr} (ok : b.renderer.render .groups output.expr = .ok x) :
    x = .named output.name := by
  obtain ⟨part, listed, given⟩ := List.mem_filterMap.mp named
  obtain ⟨index, found⟩ := List.mem_iff_getElem?.mp listed
  rw [shares index part _ found given output member rfl] at ok
  obtain ⟨part', found', name, given', rfl⟩ := Renderer.shared_of_name.mp ok
  cases found.symm.trans found'
  cases given.symm.trans given'
  rfl

theorem Selects.named (selects : b.Selects scope stage) (late : scope ≠ .table)
    (outputs : ∀ output ∈ b.selected, source output.name = true → ∀ x,
      b.renderer.render scope output.expr = .ok x → x = .named output.name) :
    ∀ field ∈ stage.fields, source field.name = true → field.expr = .named field.name := by
  obtain ⟨bucket, results, start, each, fields⟩ := selects.fields
  intro field member known
  rw [fields] at member
  rcases List.mem_append.mp member with member | member
  · rcases List.mem_append.mp member with member | member
    · have passed : bucket = b.passedBucket := by
        cases scope with
        | table => exact absurd rfl late
        | _ => exact start
      obtain ⟨e, there, rfl⟩ := Option.map_eq_some_iff.mp (Option.mem_toList.mp member)
      obtain ⟨-, rfl⟩ := passedBucket_eq_some.mp (passed ▸ there)
      rfl
    · obtain ⟨key, -, rfl⟩ := List.mem_map.mp member
      cases scope with
      | table => exact absurd rfl late
      | _ => rfl
  · obtain ⟨output, among, named, ok⟩ := related_of_mem_right each member
    rw [named] at known ⊢
    exact outputs output among known _ ok

section
variable (distinct : b.Distinct)
include distinct

theorem Distinct.output_not_head {output : Output} (member : output ∈ b.selected) :
    output.name ∉ b.bucketNames ++ b.keyNames := fun head =>
  (List.nodup_append.mp distinct.outputs).2.2 output.name head output.name
    (List.mem_map_of_mem member) rfl

theorem Computes.uncaptured (shares : b.SharesOutputs) (passes : b.Passes scope below)
    (computes : b.Computes stage) : stage.Uncaptured (below.names.contains ·) := by
  refine Stage.uncaptured_of_named fun index field found known => .inl ?_
  refine computes.toSelects.named (by simp) (fun output member known x ok => ?_) field
    (List.mem_of_getElem? found) known
  have listed := List.contains_iff_mem.mp known
  rw [passes.names] at listed
  rcases List.mem_append.mp listed with head | listed
  · exact absurd head (distinct.output_not_head member)
  have slotted : ∀ {slot}, slot ∈ b.renderer.slots → slot.name = some output.name →
      x = .named output.name := fun among given =>
    distinct.expr_of_slotName member among given (.inl rfl) ok
  rcases List.mem_append.mp listed with listed | shared
  · rcases List.mem_append.mp listed with windowed | grouped
    · have among : output.name ∈ fieldNames b.windowSlots := by
        cases scope <;> simp_all [passedWindows]
      obtain ⟨slot, among, given⟩ := mem_fieldNames.mp among
      exact slotted (mem_windowSlots.mp among).1 given
    · obtain ⟨slot, among, given⟩ := mem_fieldNames.mp grouped
      exact slotted (mem_groupSlots.mp among).1 given
  · exact shares.expr_of_sharedName member shared ok

/-! ## The bucket -/

variable {first : Stage} (windows : b.Windows first) (unpassed : bucketName ∉ b.carried)
include windows unpassed

omit distinct in
theorem Windows.bucket_origin (known : bucketName ∈ first.names) :
    bucketName ∈ b.bucketNames ++ b.keyNames ∨ bucketName ∈ fieldNames b.windowSlots := by
  rw [windows.names, List.mem_append, List.mem_append] at known
  rcases known with (head | passed) | result
  · exact .inl head
  · exact absurd passed unpassed
  · exact .inr result

theorem Selects.bucket_named (selects : b.Selects .window stage)
    (known : bucketName ∈ first.names) :
    ∀ field ∈ stage.fields, field.name = bucketName → field.expr = .named bucketName := by
  have outputs : ∀ output ∈ b.selected, (output.name == bucketName) = true → ∀ x,
      b.renderer.render .window output.expr = .ok x → x = .named output.name := by
    intro output member same x ok
    have same := beq_iff_eq.mp same
    have result := (windows.bucket_origin unpassed known).resolve_left fun head =>
      distinct.output_not_head member (same ▸ head)
    obtain ⟨slot, among, given⟩ := mem_fieldNames.mp result
    obtain ⟨listed, windowed⟩ := mem_windowSlots.mp among
    exact distinct.expr_of_slotName member listed (same ▸ given) (.inr windowed) ok
  have named := @Selects.named _ _ (· == bucketName) _ selects (by simp) outputs
  intro field member same
  rw [named field member (beq_iff_eq.mpr same), same]

theorem Passes.bucket_named (passes : b.Passes .window stage)
    (known : bucketName ∈ first.names) :
    ∀ field ∈ stage.fields, field.name = bucketName → field.expr = .named bucketName := by
  have passed : Field.mk bucketName (.named bucketName) ∈ stage.fields := by
    rcases windows.bucket_origin unpassed known with head | result
    · rcases List.mem_append.mp head with bucket | key
      · obtain ⟨start, aggregates, shared, at_, -, -, fields⟩ := passes.fields
        have there : start = some (.named bucketName) :=
          at_.trans (passedBucket_eq_some.mpr ⟨(mem_bucketNames.mp bucket).1, rfl⟩)
        rw [fields, there]
        exact List.mem_append_left _ (List.mem_append_left _ List.mem_cons_self)
      · obtain ⟨key, listed, same⟩ := List.mem_map.mp key
        exact same ▸ passes.key_mem listed
    · obtain ⟨slot, among, given⟩ := mem_fieldNames.mp result
      obtain ⟨listed, windowed⟩ := mem_windowSlots.mp among
      exact passes.window_mem (by simp) listed windowed given
  -- The names are different, so there is no other field with this one.
  intro field member same
  have equal := List.inj_on_of_nodup_map (distinct.passes passes) member passed same
  rw [equal]

end

end StageBuilder

namespace Plan

/-- In no stage a name of a field captures a column of what the stage reads. -/
structure Uncaptured (schema : Schema) (plan : Plan) : Prop where
  base : ∀ first, plan.stages[0]? = some first → first.Uncaptured schema.isStored
  above : ∀ index below stage, plan.stages[index]? = some below →
    plan.stages[index + 1]? = some stage → stage.Uncaptured (below.names.contains ·)

end Plan

namespace Compiler
variable {c : Compiler} {query : Query} {seconds : Option Int} {a : Analysis}
  {carried : List String}

theorem isShared_of_part {output : Output} {part : SharedExpr}
    (lifted : output.IsLifted a.keys) (computed : output.kind = .computed)
    (equal : output.expr.same part.expr = true)
    (shared : isShared (computedExprs a.outputs) part.expr = true) :
    isShared (computedExprs a.outputs) output.expr = true := by
  simp only [isShared, Bool.and_eq_true, decide_eq_true_eq] at shared ⊢
  rw [occurrences_of_same _ equal]
  exact ⟨⟨lifted.isCompound_of_computed computed, lifted.hasAggregate_of_computed computed⟩,
    shared.2⟩

theorem Prepares.sharesOutputs (prepares : c.Prepares query seconds a carried) :
    (c.builder query seconds a carried).SharesOutputs := by
  have sound := prepares.analysis
  have taken := sharing_of_sound sound
  have fits := fits_namingScope sound prepares.stored prepares.carries
  have plain : ∀ output ∈ a.outputs, output.expr.isPlain :=
    fun output member => (sound.outputs output member).isPlain
  rintro index part name found given output member rfl
  obtain ⟨among, selected⟩ := List.mem_filter.mp member
  -- The name is that of an output, so it is none that the naming has made up.
  obtain ⟨-, kept⟩ := @NamingScope.traced_assign (c.namingScope a carried) (c.takenNames a) _
    fits.unnamed
  obtain ⟨origin, place, -, keeps⟩ := related_getElem? kept.flip found
  have named := keeps output.name (fits.outputNames output among) given
  have place : (c.sharing a).2[index]? = some origin := place
  have listed := List.mem_of_getElem? place
  rw [taken.names origin listed, wholeName?, Option.map_eq_some_iff] at named
  obtain ⟨whole, chosen, same⟩ := named
  have is := List.find?_some chosen
  simp only [Bool.and_eq_true, Output.isComputed, beq_iff_eq] at is
  -- Where something is shared there is a last stage.
  have shares : c.sharing a = shareExprs a.outputs := by
    unfold sharing at listed ⊢
    split at listed
    · rename_i last
      rw [if_pos last]
    · cases listed
  have distinct := taken.distinct
  have among : output ∈ (c.sharing a).1 := among
  rw [shares] at among listed place distinct
  obtain ⟨original, among', name, kind, wholly⟩ :=
    related_of_mem_right (sharedWhole_shareExprs plain) among
  obtain rfl : original = whole := output_unique sound among' (List.mem_of_find?_eq_some chosen)
    (by simpa [Output.isKey, kind] using selected) (Output.isKey_of_computed is.1)
    (name.symm.trans same.symm)
  have part := isShared_of_part (sound.outputs original among') is.1 is.2
    (added_shareExprs plain listed).1
  obtain ⟨index', x, reads, place', equal⟩ := wholly (beq_iff_eq.mpr is.1) part
  rw [reads, place_unique distinct place' (List.getElem?_map.trans (congrArg _ place))
    (GroupExpr.same_trans equal is.2)]

/-- Where names of fields are visible, they capture no columns in an accepted plan. -/
theorem uncaptured_plan {plan : Plan} (visible : c.dialect.aliasInWhere = true)
    (unstamped : bucketName ∉ c.schema.names) (ok : c.plan query = .ok plan) :
    plan.Uncaptured c.schema := by
  obtain ⟨seconds, a, carried, stages, orderBy, accepts⟩ := accepts_of_plan ok
  let b := c.builder query seconds a carried
  have distinct : b.Distinct := accepts.distinct_builder
  have shares : b.SharesOutputs := accepts.sharesOutputs
  have unstored : c.schema.isStored bucketName ≠ true := fun stored =>
    unstamped (mem_names_of_isStored stored)
  have unpassed : bucketName ∉ b.carried := fun passed =>
    unstored (accepts.stored_builder.carried bucketName passed)
  obtain ⟨-, checked, built⟩ := StageBuilder.built_build accepts.built
  have unshadowed := StageBuilder.visible_of_check visible checked
  -- The first stage reads no column with the name of the bucket.
  have base : ∀ {stage : Stage}, stage ∈ stages → stage.source = .table b.table →
      stage.Uncaptured c.schema.isStored := fun member source =>
    StageBuilder.uncaptured_of_check (unshadowed _ member) (.inr ⟨_, source⟩)
      fun stored => absurd stored unstored
  have regroups : ∀ {first stage : Stage}, stage ∈ stages → b.GroupsWindow stage →
      (bucketName ∈ first.names →
        ∀ field ∈ stage.fields, field.name = bucketName → field.expr = .named bucketName) →
      stage.Uncaptured (first.names.contains ·) := fun member groups bucket =>
    StageBuilder.uncaptured_of_check (unshadowed _ member) (.inl groups.filter)
      fun known => bucket (List.contains_iff_mem.mp known)
  rw [accepts.plan]
  generalize c.layoutOf a = layout at built
  cases built with
  | flat groups selects =>
    constructor
    · rintro first ⟨rfl⟩
      exact (base List.mem_cons_self groups.source).finish
    · rintro (_ | index) below stage - found <;> cases found
  | computed groups passes computes =>
    constructor
    · rintro first ⟨rfl⟩
      exact base List.mem_cons_self groups.source
    · rintro (_ | _ | index) below stage under found <;> cases under <;> cases found
      exact (computes.uncaptured distinct shares passes).finish
  | windowed windows groups selects =>
    constructor
    · rintro first ⟨rfl⟩
      exact base List.mem_cons_self windows.source
    · rintro (_ | _ | index) below stage under found <;> cases under <;> cases found
      exact (regroups (by simp) groups (selects.bucket_named distinct windows unpassed)).finish
  | windowedComputed windows groups passes computes =>
    constructor
    · rintro first ⟨rfl⟩
      exact base List.mem_cons_self windows.source
    · rintro (_ | _ | _ | index) below stage under found <;> cases under <;> cases found
      · exact regroups (by simp) groups (passes.bucket_named distinct windows unpassed)
      · exact (computes.uncaptured distinct shares passes).finish

theorem uncaptured_risingLoad : ∃ plan, clickhouseHosts.plan .risingLoad = .ok plan ∧
    plan.Uncaptured clickhouseHosts.schema := by
  obtain ⟨plan, ok⟩ := plan_clickhouseRisingLoad
  exact ⟨plan, ok, uncaptured_plan rfl (by decide) ok⟩

end Compiler

end Rollup
