import Rollup.Proofs.Group.Complete
import Rollup.Proofs.Refusal
import Rollup.Proofs.Staging.Named

/-! Stages that can be built.

When all that is referred to is there, all that is read by its name has one, and every aggregate has
the argument it needs, the stages fail for two reasons only: a database may be unable to cut time
into buckets, and an aggregate of groups may ask for more than its argument.
-/

set_option autoImplicit false

namespace Rollup

namespace Renderer
variable {P : CompileError → Prop} {r : Renderer} {scope : Scope}

def extent (r : Renderer) : Extent :=
  ⟨r.keys.length, r.slots.length, r.shared.length, r.outputs.length⟩

theorem failsOnly_target {α : Type} {items : List α} {index : Nat} (below : index < items.length) :
    FailsOnly P (target items index) := by
  rw [target_eq_ok.mpr (List.getElem?_eq_getElem below)]
  exact .ok _

theorem failsOnly_slotName {slot : AggregateSlot} (named : slot.name.isSome = true) :
    FailsOnly P (slotName slot) := by
  obtain ⟨name, given⟩ := Option.isSome_iff_exists.mp named
  rw [slotName_eq_ok.mpr given]
  exact .ok _

theorem failsOnly_sharedName {index : Nat} {part : SharedExpr} (named : part.name.isSome = true) :
    FailsOnly P (sharedName index part) := by
  obtain ⟨name, given⟩ := Option.isSome_iff_exists.mp named
  rw [sharedName_eq_ok.mpr given]
  exact .ok _

theorem failsOnly_slotExpr {slot : AggregateSlot}
    (named : scope = .groups ∨ slot.windowed = true → slot.name.isSome = true)
    (computed : slot.windowed = false → FailsOnly P (r.aggregate slot.call)) :
    FailsOnly P (r.slotExpr slot scope) := by
  unfold slotExpr
  split
  · rename_i read
    exact (failsOnly_slotName (named (by simpa using read))).map _
  · rename_i grouped
    exact computed (by simp_all)

theorem failsOnly_plainReference {target : Reference} (within : target.IsWithin r.extent)
    (plain : target.isLifted = true ∨ ∃ name, target = .column name)
    (slots : ∀ index slot, target = .aggregate index → r.slots[index]? = some slot →
      FailsOnly P (r.slotExpr slot scope)) : FailsOnly P (r.plainReference scope target) := by
  cases target with
  | column name => exact .ok _
  | key index => exact (failsOnly_target within).map _
  | aggregate index =>
    exact (failsOnly_target within).bind_of_ok fun slot found =>
      slots index slot rfl (target_eq_ok.mp found)
  | shared index => rcases plain with is | ⟨_, is⟩ <;> cases is
  | output index => rcases plain with is | ⟨_, is⟩ <;> cases is

/-- A complete expression over single rows can be written. -/
theorem failsOnly_complete {registry : Registry} {e : Expr} (complete : e.IsComplete registry) :
    FailsOnly P (rowExpr e) :=
  failsOnly_rowExpr fun _ member => absurd (complete _ member) Bool.false_ne_true

theorem failsOnly_windowCall {registry : Registry} {call : AggregateCall}
    (complete : call.IsComplete registry) (picks : call.func.picksByTime = true)
    (partitionBy : List Sql.Expr) : FailsOnly P (r.windowCall call partitionBy) := by
  unfold windowCall
  split
  · rename_i arg given
    exact (failsOnly_complete (complete.arg arg given)).bind fun _ => .ok _
  · rename_i absent
    rw [complete.argued absent] at picks
    cases picks

/-- An aggregate is computed unless it is a rate without buckets or the database lacks the means. -/
theorem failsOnly_aggregate {registry : Registry} {call : AggregateCall}
    (complete : call.IsComplete registry)
    (rate : call.func = .rate → r.bucketSeconds = none →
      P (.unsupported call.render .rateWithoutInterval))
    (join : ∀ value, FailsOnly P (r.capability call (r.dialect.join value)))
    (pick : call.func.picksByTime = true → ∀ last value time,
      FailsOnly P (r.capability call (r.dialect.pick last value time))) :
    FailsOnly P (r.aggregate call) := by
  unfold aggregate
  split
  · rename_i arg given
    refine (failsOnly_complete (complete.arg arg given)).bind fun value => ?_
    unfold aggregateOf
    split <;> rename_i func <;> try exact .ok _
    · exact join value
    · split
      · exact .ok _
      · rename_i unbucketed
        exact .error (rate func unbucketed)
    · exact pick (by rw [func]; rfl) false value _
    · exact pick (by rw [func]; rfl) true value _
  · rename_i absent
    rw [complete.argued absent]
    exact .ok _

end Renderer

namespace StageBuilder

def ReadsLast (b : StageBuilder) (index : Nat) : Prop :=
  (∃ output ∈ b.renderer.outputs, .aggregate index ∈ output.expr.references) ∨
    ∃ condition ∈ b.conditions, condition.level = .output ∧
      .aggregate index ∈ condition.expr.references

/-- What stages need so that all of their parts can be written. -/
structure Ready (b : StageBuilder) (layout : Layout) (registry : Registry) : Prop where
  refers : b.Refers
  outputs : ∀ output ∈ b.renderer.outputs, output.expr.IsWithin b.renderer.extent
  shared : ∀ part ∈ b.renderer.shared, part.expr.IsWithin b.renderer.extent
  conditions : ∀ condition ∈ b.conditions, condition.expr.IsWithin b.renderer.extent
  complete : ∀ slot ∈ b.renderer.slots, slot.call.IsComplete registry
  windows : ∀ slot ∈ b.renderer.slots, slot.windowed = true →
    slot.call.func.picksByTime = true ∧ slot.name.isSome = true
  parts : ∀ part ∈ b.renderer.shared, part.name.isSome = true
  fields : layout.hasLastStage = true → ∀ index slot, b.renderer.slots[index]? = some slot →
    b.ReadsLast index → slot.name.isSome = true
  /-- Conditions on outputs have a last stage to be tested in. -/
  results : layout.hasLastStage = false → ∀ condition ∈ b.conditions, condition.level ≠ .output

/-- The errors of what a database may be unable to do. -/
structure MeansFailOnly (P : CompileError → Prop) (b : StageBuilder) : Prop where
  bucket : FailsOnly P b.bucketStart?
  aggregates : ∀ slot ∈ b.renderer.slots, slot.windowed = false →
    FailsOnly P (b.renderer.aggregate slot.call)

namespace Ready
variable {P : CompileError → Prop} {b : StageBuilder} {layout : Layout} {registry : Registry}
  (ready : b.Ready layout registry) (means : b.MeansFailOnly P)
include ready

theorem checkConditions : b.checkConditions layout = .ok () := by
  unfold StageBuilder.checkConditions
  split
  · rfl
  · rename_i lastless
    split
    · rename_i condition found
      have level := List.find?_some found
      exact absurd (by simpa using level)
        (ready.results (by simpa using lastless) condition (List.mem_of_find?_eq_some found))
    · rfl

include means

theorem plainReference (scope : Scope) {target : Reference}
    (within : target.IsWithin b.renderer.extent)
    (plain : target.isLifted = true ∨ ∃ name, target = .column name)
    (read : scope = .groups → layout.hasLastStage = true ∧
      ∀ index, target = .aggregate index → b.ReadsLast index) :
    FailsOnly P (b.renderer.plainReference scope target) := by
  refine Renderer.failsOnly_plainReference within plain fun index slot is found => ?_
  have member := List.mem_of_getElem? found
  refine Renderer.failsOnly_slotExpr (fun named => ?_) (means.aggregates slot member)
  rcases named with late | windowed
  · exact ready.fields (read late).1 index slot found ((read late).2 index is)
  · exact (ready.windows slot member windowed).2

theorem sharedExpr {scope : Scope} (early : scope ≠ .groups) {part : SharedExpr}
    (member : part ∈ b.renderer.shared) :
    FailsOnly P (Renderer.groupExpr (b.renderer.plainReference scope) part.expr) :=
  Renderer.failsOnly_groupExpr fun target refers =>
    ready.plainReference means scope (ready.shared part member target refers)
      (.inl (ready.refers.shared part member target refers)) fun late => absurd late early

theorem innerReference (scope : Scope) {target : Reference}
    (within : target.IsWithin b.renderer.extent) (inner : target.isInner = true)
    (read : scope = .groups → layout.hasLastStage = true ∧
      ∀ index, target = .aggregate index → b.ReadsLast index) :
    FailsOnly P (b.renderer.innerReference scope target) := by
  cases target with
  | shared index =>
    refine (Renderer.failsOnly_target within).bind_of_ok fun part found => ?_
    have member := List.mem_of_getElem? (Renderer.target_eq_ok.mp found)
    split
    · exact (Renderer.failsOnly_sharedName (ready.parts part member)).map _
    · rename_i early
      exact ready.sharedExpr means (by simpa using early) member
  | key index => exact ready.plainReference means scope within (.inl rfl) read
  | aggregate index => exact ready.plainReference means scope within (.inl rfl) read
  | column name => cases inner
  | output index => cases inner

theorem referenceOfOutput (scope : Scope) (last : scope = .groups → layout.hasLastStage = true)
    {output : Output} (member : output ∈ b.renderer.outputs) :
    ∀ target ∈ output.expr.references, FailsOnly P (b.renderer.innerReference scope target) :=
  fun target refers =>
    ready.innerReference means scope (ready.outputs output member target refers)
      (ready.refers.outputs output member target refers) fun late =>
        ⟨last late, fun _ is => .inl ⟨output, member, is ▸ refers⟩⟩

theorem render_output (scope : Scope) (last : scope = .groups → layout.hasLastStage = true)
    {output : Output} (member : output ∈ b.renderer.outputs) :
    FailsOnly P (b.renderer.render scope output.expr) := by
  refine Renderer.failsOnly_groupExpr fun target refers => ?_
  rw [Renderer.reference_of_isInner (ready.refers.outputs output member target refers)]
  exact ready.referenceOfOutput means scope last member target refers

/-- Rows and groups are tested before the last stage, so what they read is not read by a name. -/
theorem render_early (scope : Scope) (early : scope ≠ .groups) {e : GroupExpr}
    (within : e.IsWithin b.renderer.extent)
    (plain : ∀ target ∈ e.references, target.isLifted = true ∨ ∃ name, target = .column name) :
    FailsOnly P (b.renderer.render scope e) := by
  refine Renderer.failsOnly_groupExpr fun target refers => ?_
  have plain := plain target refers
  have same : b.renderer.reference scope target = b.renderer.plainReference scope target := by
    rcases plain with lifted | ⟨name, rfl⟩
    · rw [Renderer.reference_of_isInner (Reference.isInner_of_isLifted lifted),
        Renderer.innerReference_of_isLifted lifted]
    · rfl
  rw [same]
  exact ready.plainReference means scope (within target refers) plain fun late => absurd late early

theorem render_result (last : layout.hasLastStage = true) {condition : Condition}
    (member : condition ∈ b.conditions) (level : condition.level = .output) :
    FailsOnly P (b.renderer.render .groups condition.expr) := by
  refine Renderer.failsOnly_groupExpr fun target refers => ?_
  rcases ready.refers.output condition member level target refers with
    lifted | ⟨index, output, rfl, -, -⟩
  · have inner := Reference.isInner_of_isLifted lifted
    rw [Renderer.reference_of_isInner inner]
    exact ready.innerReference means .groups (ready.conditions condition member target refers) inner
      fun _ => ⟨last, fun index is => .inr ⟨condition, member, level, is ▸ refers⟩⟩
  · -- An output is read by its name, or it is written once more.
    refine (Renderer.failsOnly_target (ready.conditions condition member _ refers)).bind_of_ok
      fun other place => ?_
    have listed := List.mem_of_getElem? (Renderer.target_eq_ok.mp place)
    split
    · rename_i early
      exact absurd early (by decide)
    · split
      · exact .ok _
      · exact Renderer.failsOnly_groupExpr
          (ready.referenceOfOutput means .groups (fun _ => last) listed)

theorem partsFailOnly : b.PartsFailOnly P layout where
  bucket := means.bucket
  windows slot member := by
    obtain ⟨member, windowed⟩ := List.mem_filter.mp member
    obtain ⟨picks, named⟩ := ready.windows slot member windowed
    exact ⟨Renderer.failsOnly_slotName named,
      Renderer.failsOnly_windowCall (ready.complete slot member) picks⟩
  rows := FailsOnly.mapM fun condition listed => by
    obtain ⟨member, level⟩ := List.mem_filter.mp listed
    refine ready.render_early means .table nofun (ready.conditions condition member)
      fun target refers => ?_
    rcases ready.refers.row condition member (by simpa using level) target refers with
      column | ⟨index, rfl⟩
    · exact .inr column
    · exact .inl rfl
  groups scope early := FailsOnly.mapM fun condition listed => by
    obtain ⟨member, level⟩ := List.mem_filter.mp listed
    exact ready.render_early means scope early (ready.conditions condition member)
      fun target refers =>
        .inl (ready.refers.group condition member (by simpa using level) target refers)
  outputs scope last := FailsOnly.mapM fun output listed =>
    (ready.render_output means scope last (List.mem_of_mem_filter listed)).bind fun _ => .ok _
  aggregates _ := FailsOnly.mapM fun (name, call) listed => by
    obtain ⟨slot, member, kept⟩ := List.mem_filterMap.mp listed
    split at kept
    · cases kept
    · rename_i grouped
      obtain ⟨name, -, same⟩ := Option.map_eq_some_iff.mp kept
      obtain ⟨rfl, rfl⟩ := Prod.mk.inj same
      exact (means.aggregates slot member (by simpa using grouped)).bind fun _ => .ok _
  shared _ scope early := FailsOnly.mapM fun (part, index) listed => by
    have member := List.mem_of_getElem? (List.mem_zipIdx_iff_getElem?.mp listed)
    refine (Renderer.failsOnly_sharedName (ready.parts part member)).bind fun _ => ?_
    exact (ready.render_early means scope early (ready.shared part member) fun target refers =>
      .inl (ready.refers.shared part member target refers)).bind fun _ => .ok _
  results last := FailsOnly.mapM fun condition listed => by
    obtain ⟨member, level⟩ := List.mem_filter.mp listed
    exact ready.render_result means last member (by simpa using level)

/-- The stages fail for what the database cannot do and for what an aggregate asks for. -/
theorem failsOnly_stages : FailsOnly P (b.stages layout) := (ready.partsFailOnly means).stages

theorem failsOnly_build (hidden : b.renderer.dialect.aliasInWhere = true → ∀ name,
    P (.shadowedColumn name b.renderer.dialect.name)) : FailsOnly P (b.build layout) := by
  unfold StageBuilder.build
  rw [ready.checkConditions]
  refine (ready.failsOnly_stages means).bind fun stages => FailsOnly.bind ?_ fun _ => .ok _
  intro fault failed
  obtain ⟨visible, -, -, field, -, rfl⟩ := b.shadowing_of_check failed
  exact hidden visible field.name

end Ready

end StageBuilder

/-! ## Queries -/

namespace Compiler
variable {c : Compiler} {query : Query} {seconds : Option Int} {a : Analysis}
  {carried : List String}

theorem isComplete_select {resolver : Resolver} (needs : resolver.registry.NeedsArguments)
    {selector : Selector} {selected : Selected} (ok : select resolver selector = .ok selected) :
    selected.expr.IsComplete resolver.registry := by
  obtain ⟨-, e, resolved, same⟩ := select_eq_ok ok
  rw [same]
  exact Resolver.isComplete_aggregateMetrics (Resolver.isComplete_resolve needs resolved)

theorem complete_analyze (needs : c.registry.NeedsArguments)
    (ok : c.analyze query ⟨c.schema, c.registry, seconds⟩ = .ok a) :
    a.Gathered (AggregateCall.IsComplete c.registry) :=
  gathered_analyze
    (fun _ _ chosen _ _ _ => AggregateCall.isComplete_of_mem (isComplete_select needs chosen))
    (fun _ _ resolved _ _ _ =>
      AggregateCall.isComplete_of_mem (Resolver.isComplete_resolve needs resolved)) ok

theorem hasLastStage_of_computed {output : Output} (member : output ∈ a.outputs)
    (computed : output.kind = .computed) : (c.layoutOf a).hasLastStage = true := by
  have some : a.outputs.any (·.isComputed) = true :=
    List.any_eq_true.mpr ⟨output, member, by rw [Output.isComputed, computed]; rfl⟩
  rw [layoutOf, layout, some, Layout.choose, Bool.true_or, if_pos rfl, if_pos rfl]
  split <;> rfl

theorem isField_of_readsLast (last : (c.layoutOf a).hasLastStage = true) {index : Nat}
    {slot : AggregateSlot} (read : (c.builder query seconds a carried).ReadsLast index) :
    (c.namingScope a carried).isField index slot = true := by
  have listed : index ∈ (c.namingScope a carried).readLast := by
    rcases read with ⟨output, member, refers⟩ | ⟨condition, member, level, refers⟩
    · exact List.mem_append_left _ (List.mem_flatMap.mpr
        ⟨output, member, List.mem_filterMap.mpr ⟨_, refers, rfl⟩⟩)
    · exact List.mem_append_right _ (List.mem_flatMap.mpr
        ⟨condition, List.mem_filter.mpr ⟨member, by simp [level]⟩,
          List.mem_filterMap.mpr ⟨_, refers, rfl⟩⟩)
  have last : (c.namingScope a carried).layout.hasLastStage = true := last
  rw [NamingScope.isField, last, Bool.true_and, List.contains_iff_mem.mpr listed, Bool.or_true]

namespace Prepares
variable (prepares : c.Prepares query seconds a carried)
include prepares

theorem extent_builder : (c.builder query seconds a carried).renderer.extent =
    ⟨a.keys.length, a.calls.length, (c.sharing a).2.length, a.outputs.length⟩ := by
  have slots : (c.named a carried).1.length = a.calls.length := by
    rw [← List.length_map (f := AggregateSlot.unnamed), prepares.assigned.calls]
    exact List.length_map _
  have shared : (c.named a carried).2.length = (c.sharing a).2.length := by
    rw [← List.length_map (f := SharedExpr.expr), prepares.assigned.exprs]
    exact List.length_map _
  have outputs := (sharing_of_sound prepares.analysis).each.length_eq
  rw [Renderer.extent, Extent.mk.injEq]
  exact ⟨rfl, slots, shared, outputs.symm⟩

theorem windowed_of_mem {slot : AggregateSlot} (member : slot ∈ (c.named a carried).1) :
    slot.windowed = (slot.call.func.picksByTime && c.dialect.windowed slot.call.func) := by
  obtain ⟨call, -, same⟩ := List.mem_map.mp (prepares.slot_unnamed member)
  have is : call = slot.call := congrArg AggregateSlot.call same
  rw [← is]
  exact (congrArg AggregateSlot.windowed same).symm

theorem slot_of_mem {call : AggregateCall} (member : call ∈ a.calls) :
    ∃ slot ∈ (c.named a carried).1, slot.call = call := by
  have listed : AggregateSlot.mk call (call.func.picksByTime && c.dialect.windowed call.func) none ∈
      c.slots a.calls := List.mem_map.mpr ⟨call, member, rfl⟩
  rw [← prepares.assigned.calls] at listed
  obtain ⟨slot, among, same⟩ := List.mem_map.mp listed
  exact ⟨slot, among, congrArg AggregateSlot.call same⟩

theorem ready_builder (needs : c.registry.NeedsArguments) :
    (c.builder query seconds a carried).Ready (c.layoutOf a) c.registry := by
  have gathered := complete_analyze needs prepares.analyzed
  have sharing := sharing_of_sound prepares.analysis
  obtain ⟨slotNames, partNames⟩ := NamingScope.allNamed_assign (c.namingScope a carried)
    (c.slots a.calls) (.ofTaken (c.takenNames a))
  have named : ∀ index slot, (c.named a carried).1[index]? = some slot →
    (c.namingScope a carried).isField index slot = true → slot.name.isSome = true := slotNames
  refine ⟨prepares.refers_builder, ?outputs, ?shared, ?conditions, ?complete, ?windows, partNames,
    fun last index slot found read =>
      named index slot found (isField_of_readsLast last read), ?results⟩
  case outputs =>
    intro output member
    obtain ⟨original, listed, from_⟩ := related_of_mem_right sharing.each member
    rw [prepares.extent_builder]
    exact (from_.isWithin (prepares.analysis.outputs original listed).isPlain
      (gathered.outputs original listed)).mono
        ⟨Nat.le_refl _, Nat.le_refl _, Nat.le_of_eq (List.length_map _), Nat.zero_le _⟩
  case shared =>
    intro part member target refers
    obtain ⟨origin, listed, same⟩ := prepares.shared_found member
    obtain ⟨output, among, refers⟩ := sharing.refers origin listed target (same ▸ refers)
    have le : (extentOf a.keys.length 0 a.calls).le
        ⟨a.keys.length, a.calls.length, (c.sharing a).2.length, a.outputs.length⟩ :=
      ⟨Nat.le_refl _, Nat.le_refl _, Nat.zero_le _, Nat.zero_le _⟩
    rw [prepares.extent_builder]
    exact (gathered.outputs output among).mono le target refers
  case conditions =>
    intro condition member
    rw [prepares.extent_builder]
    exact (gathered.conditions condition member).mono
      ⟨Nat.le_refl _, Nat.le_refl _, Nat.zero_le _, Nat.le_refl _⟩
  case complete => exact fun slot member => gathered.calls slot.call (prepares.call_mem member)
  case windows =>
    intro slot member windowed
    obtain ⟨index, found⟩ := List.mem_iff_getElem?.mp member
    refine ⟨?_, named index slot found (by rw [NamingScope.isField, windowed, Bool.true_or])⟩
    have picks := (prepares.windowed_of_mem member).symm.trans windowed
    exact (Bool.and_eq_true_iff.mp picks).1
  case results =>
    intro lastless condition member level
    obtain ⟨conjunct, tests⟩ := prepares.tests_of_mem member
    obtain ⟨target, refers, is⟩ := GroupExpr.level_eq_output.mp (tests.reached.trans level)
    cases target <;> try cases is
    obtain ⟨output, found, computed⟩ := tests.output _ refers
    have last := hasLastStage_of_computed (c := c) (List.mem_of_getElem? found) computed
    rw [lastless] at last
    cases last

end Prepares

end Compiler

end Rollup
