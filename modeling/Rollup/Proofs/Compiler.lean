import Rollup.Proofs.Analysis
import Rollup.Proofs.Group.Shared
import Rollup.Proofs.Staging.Sound

/-! What is known of an accepted query.

An accepted query has been analyzed, its shared expressions are taken out if there is a last stage,
its aggregates and shared expressions have their names, and its stages are built. The names of
fields in a stage are different, and each aggregate that is computed behind a window stage finds its
columns passed on by it.
-/

set_option autoImplicit false

namespace Rollup

theorem mem_names_of_isStored {schema : Schema} {name : String}
    (stored : schema.isStored name = true) : name ∈ schema.names := by
  obtain ⟨column, found, -⟩ := (Option.any_eq_true _ _).mp stored
  unfold Schema.column? at found
  rw [Schema.names, List.mem_cons, List.mem_append, List.mem_append]
  have listed : ∀ {α : Type} {nameOf : α → String} {items : List α} {item : α},
      items.find? (nameOf · == name) = some item → name ∈ items.map nameOf := by
    intro α nameOf items item found
    have same := List.find?_some found
    exact List.mem_map.mpr ⟨item, List.mem_of_find?_eq_some found, by simpa using same⟩
  split at found
  · rename_i same
    exact .inl same
  · split at found
    · rename_i dimension listing
      exact .inr (.inl (.inl (listed listing)))
    · split at found
      · rename_i metric listing
        exact .inr (.inl (.inr (listed listing)))
      · obtain ⟨derived, found, -⟩ := Option.map_eq_some_iff.mp found
        exact .inr (.inr (listed found))

theorem isStored_of_dimension {schema : Schema} {name : String} {dimension : Dimension}
    (found : schema.column? name = some (.dimension dimension)) : schema.isStored name = true := by
  rw [Schema.isStored, found]
  rfl

namespace Compiler

variable {c : Compiler} {query : Query} {seconds : Option Int} {a : Analysis}
  {carried : List String}

/-! ## Laying out -/

def layoutOf (c : Compiler) (a : Analysis) : Layout := layout (c.slots a.calls) a.outputs

/-- The outputs as they are laid out, and the expressions that they share. -/
def sharing (c : Compiler) (a : Analysis) : List Output × List SharedExpr :=
  if (c.layoutOf a).hasLastStage then shareExprs a.outputs else (a.outputs, [])

def namingScope (c : Compiler) (a : Analysis) (carried : List String) : NamingScope :=
  ⟨c.layoutOf a, a.keys, (c.sharing a).1, a.conditions, carried, (c.sharing a).2⟩

/-- The names that are taken before fields get theirs. -/
def takenNames (c : Compiler) (a : Analysis) : List String := c.schema.names ++ a.names

def named (c : Compiler) (a : Analysis) (carried : List String) :
    List AggregateSlot × List SharedExpr :=
  (((c.namingScope a carried).assign (c.slots a.calls)).run (.ofTaken (c.takenNames a))).1

def builder (c : Compiler) (query : Query) (seconds : Option Int) (a : Analysis)
    (carried : List String) : StageBuilder where
  renderer := ⟨c.dialect, a.keys, (c.named a carried).1, (c.named a carried).2, (c.sharing a).1,
    c.timeColumn query, seconds⟩
  table := c.schema.table
  conditions := a.conditions
  time := timeRange query (c.timeColumn query) seconds
  carried

/-- What a query computes before it is laid out: nothing is shared and no aggregate has a name. -/
def unstaged (c : Compiler) (query : Query) (seconds : Option Int) (a : Analysis) :
    StageBuilder where
  renderer := ⟨c.dialect, a.keys, c.slots a.calls, [], a.outputs, c.timeColumn query, seconds⟩
  table := c.schema.table
  conditions := a.conditions
  time := timeRange query (c.timeColumn query) seconds
  carried := []

/-- The columns that are passed on to the stage of groups. -/
def carriedIn (c : Compiler) (query : Query) (a : Analysis) : Except CompileError (List String) :=
  if (c.layoutOf a).isWindowed then
    carriedColumns a.keys (c.slots a.calls) (c.timeColumn query)
  else pure []

theorem layOut_eq (c : Compiler) (query : Query) (seconds : Option Int) (a : Analysis) :
    c.layOut query seconds a = (do
      let carried ← c.carriedIn query a
      let orderBy ← query.orderBy.mapM (sortKey a.names)
      let stages ← (c.builder query seconds a carried).build (c.layoutOf a)
      return (⟨finish orderBy (query.limit.map rowWindow) stages⟩,
        outputColumns ⟨c.schema, a.keys, a.calls, (c.named a carried).2⟩ (c.sharing a).1
          (isBucketed query))) := by
  simp only [layOut, carriedIn, layoutOf]
  -- The columns to carry are looked for only where there is a window stage.
  by_cases windowed : (layout (c.slots a.calls) a.outputs).isWindowed = true
  · simp only [windowed, if_true]
    rfl
  · simp only [windowed]
    rfl

/-- What is known of a query when its stages are built. -/
structure Prepares (c : Compiler) (query : Query) (seconds : Option Int) (a : Analysis)
    (carried : List String) : Prop where
  stored : c.schema.isStored (c.timeColumn query) = true
  bucket : bucketSeconds query = .ok seconds
  analyzed : c.analyze query ⟨c.schema, c.registry, seconds⟩ = .ok a
  carries : c.carriedIn query a = .ok carried

/-- How an accepted query is laid out. -/
structure Accepts (c : Compiler) (query : Query) (plan : Plan) (seconds : Option Int)
    (a : Analysis) (carried : List String) (stages : List Stage)
    (orderBy : List (Sql.SortKey Sql.Expr)) : Prop extends
    c.Prepares query seconds a carried where
  sorted : query.orderBy.mapM (sortKey a.names) = .ok orderBy
  built : (c.builder query seconds a carried).build (c.layoutOf a) = .ok stages
  plan : plan = ⟨finish orderBy (query.limit.map rowWindow) stages⟩

def resultColumns (c : Compiler) (query : Query) (a : Analysis) (carried : List String) :
    List OutputColumn :=
  outputColumns ⟨c.schema, a.keys, a.calls, (c.named a carried).2⟩ (c.sharing a).1
    (isBucketed query)

theorem accepts_of_planWithColumns {plan : Plan} {columns : List OutputColumn}
    (ok : c.planWithColumns query = .ok (plan, columns)) :
    ∃ seconds a carried stages orderBy,
      c.Accepts query plan seconds a carried stages orderBy ∧
        columns = c.resultColumns query a carried := by
  unfold planWithColumns at ok
  split at ok
  · cases ok
  · dsimp only at ok
    split at ok
    · cases ok
    · rename_i stored
      simp only [bind_eq_ok] at ok
      obtain ⟨seconds, bucket, a, analyzed, ok⟩ := ok
      simp only [layOut_eq, bind_eq_ok, pure_eq_ok, Prod.mk.injEq] at ok
      obtain ⟨carried, carries, orderBy, sorted, stages, built, rfl, rfl⟩ := ok
      exact ⟨seconds, a, carried, stages, orderBy,
        ⟨⟨by simpa using stored, bucket, analyzed, carries⟩, sorted, built, rfl⟩, rfl⟩

theorem accepts_of_plan {plan : Plan} (ok : c.plan query = .ok plan) :
    ∃ seconds a carried stages orderBy,
      c.Accepts query plan seconds a carried stages orderBy := by
  obtain ⟨⟨plan, columns⟩, ok, rfl⟩ := bind_pure_eq_ok.mp ok
  obtain ⟨seconds, a, carried, stages, orderBy, accepts, -⟩ := accepts_of_planWithColumns ok
  exact ⟨seconds, a, carried, stages, orderBy, accepts⟩

/-! ## Sharing -/

theorem sharing_nil {outputs : List Output} (plain : ∀ output ∈ outputs, output.expr.isPlain) :
    Sharing outputs outputs [] where
  each := List.forall₂_same.mpr fun output member =>
    ⟨rfl, rfl, (GroupExpr.unshare_eq_self (plain output member) _).symm ▸ GroupExpr.same_refl _,
      fun _ => .inl, fun _ => rfl⟩
  refers _ member := absurd member List.not_mem_nil
  compound _ member := absurd member List.not_mem_nil
  distinct := .nil
  names _ member := absurd member List.not_mem_nil

theorem sharing_sharing (plain : ∀ output ∈ a.outputs, output.expr.isPlain) :
    Sharing a.outputs (c.sharing a).1 (c.sharing a).2 := by
  unfold sharing
  split
  · exact sharing_shareExprs plain
  · exact sharing_nil plain

theorem selectedNames_eq {outputs outputs' : List Output} {found : List GroupExpr}
    (each : List.Forall₂ (SharedFrom found) outputs outputs') :
    (outputs'.filter (!·.isKey)).map (·.name) = (outputs.filter (!·.isKey)).map (·.name) :=
  filter_map_of_related each fun output output' from_ =>
    ⟨by rw [Output.isKey, Output.isKey, from_.kind], from_.name⟩

/-! ## Names -/

theorem isBucketed_builder (bucket : bucketSeconds query = .ok seconds) :
    (c.builder query seconds a carried).isBucketed = isBucketed query := by
  unfold bucketSeconds at bucket
  simp only [StageBuilder.isBucketed, StageBuilder.step?, builder, timeRange, isBucketed]
  split at bucket
  · rename_i none
    rw [none]
    rfl
  · -- A query with an interval is bucketed if it has a step.
    rename_i interval some
    split at bucket
    · cases bucket
      rw [some]
      cases step : interval.step <;> simp [step]
    · cases bucket

theorem carriedIn_eq_ok (ok : c.carriedIn query a = .ok carried) :
    carried.Nodup ∧ (∀ key ∈ a.keys, key.name ∉ carried) ∧
      (∀ column ∈ carried, ∃ slot ∈ c.slots a.calls,
        column ∈ slotColumns (c.timeColumn query) slot) ∧
      ((c.layoutOf a).isWindowed = true → ∀ slot ∈ c.slots a.calls, slot.windowed = false →
        ∀ column ∈ slotColumns (c.timeColumn query) slot,
          column ∈ carried ∨ GroupKey.mk column column ∈ a.keys) := by
  unfold carriedIn at ok
  split at ok
  · unfold carriedColumns at ok
    dsimp only at ok
    split at ok
    · cases ok
    · rename_i absent
      cases ok
      refine ⟨(nodup_firstSeen _).filter _, fun key member => ?_, fun column member => ?_,
        fun _ slot listed computed column read => ?_⟩
      · simpa using List.find?_eq_none.mp absent key member
      · obtain ⟨slot, listed, read⟩ :=
          List.mem_flatMap.mp (mem_firstSeen.mp (List.mem_of_mem_filter member))
        exact ⟨slot, List.mem_of_mem_filter listed, read⟩
      · by_cases key : GroupKey.mk column column ∈ a.keys
        · exact .inr key
        · refine .inl (List.mem_filter.mpr ⟨mem_firstSeen.mpr (List.mem_flatMap.mpr
            ⟨slot, List.mem_filter.mpr ⟨listed, by simp [computed]⟩, read⟩), by simpa using key⟩)
  · rename_i unwindowed
    cases ok
    exact ⟨.nil, fun _ _ => List.not_mem_nil, fun column member => absurd member List.not_mem_nil,
      fun windowed => absurd windowed unwindowed⟩

theorem columns_slotColumns {slot : AggregateSlot} {timeColumn column : String}
    (member : column ∈ slotColumns timeColumn slot) :
    column ∈ slot.call.columns ∨ column = timeColumn := by
  rcases List.mem_append.mp member with member | member
  · exact .inl member
  · split at member
    · exact .inr (List.mem_singleton.mp member)
    · cases member

theorem slot_of_call {slot : AggregateSlot} (member : slot ∈ c.slots a.calls) :
    slot.call ∈ a.calls ∧ slot.name = none := by
  obtain ⟨call, listed, rfl⟩ := List.mem_map.mp member
  exact ⟨listed, rfl⟩

theorem taken_of_isStored {name : String} (stored : c.schema.isStored name = true) :
    name ∈ c.takenNames a := List.mem_append_left _ (mem_names_of_isStored stored)

/-- Different shared expressions are different outputs, and these have different names. -/
theorem distinct_sharedNames {outputs outputs' : List Output} {shared : List SharedExpr}
    (sharing : Sharing outputs outputs' shared)
    (unique : ∀ a ∈ outputs, ∀ b ∈ outputs, a.kind = .computed → b.kind = .computed →
      a.name = b.name → a = b) : (sharedNames shared).Nodup := by
  rw [sharedNames, List.Nodup, List.pairwise_filterMap]
  have distinct := List.pairwise_map.mp sharing.distinct
  -- With one name, two shared expressions are one output; but no two of them are equal keys.
  refine distinct.imp_of_mem fun {first second} listed listed' differ name named other named' => ?_
  rintro rfl
  rw [sharing.names first listed, wholeName?, Option.map_eq_some_iff] at named
  rw [sharing.names second listed', wholeName?, Option.map_eq_some_iff] at named'
  obtain ⟨x, found, rfl⟩ := named
  obtain ⟨y, found', same⟩ := named'
  have is := List.find?_some found
  have is' := List.find?_some found'
  simp only [Bool.and_eq_true, Output.isComputed, beq_iff_eq] at is is'
  obtain rfl := unique y (List.mem_of_find?_eq_some found') x (List.mem_of_find?_eq_some found)
    is'.1 is.1 same
  have equal := GroupExpr.same_trans (GroupExpr.same_symm is.2) is'.2
  rw [differ] at equal
  cases equal

section
variable (sound : a.Sound c query seconds)
include sound

theorem sharing_of_sound : Sharing a.outputs (c.sharing a).1 (c.sharing a).2 :=
  sharing_sharing fun output member => (sound.outputs output member).isPlain

theorem selectedNames_nodup : ((a.outputs.filter (!·.isKey)).map (·.name)).Nodup := by
  have distinct := sound.distinct
  rw [sound.names] at distinct
  exact (List.nodup_append.mp (List.nodup_append.mp distinct).2.1).2.1

theorem output_unique {x y : Output} (listed : x ∈ a.outputs) (listed' : y ∈ a.outputs)
    (selected : x.isKey = false) (selected' : y.isKey = false) (same : x.name = y.name) : x = y :=
  List.inj_on_of_nodup_map (selectedNames_nodup sound)
    (List.mem_filter.mpr ⟨listed, by simp [selected]⟩)
    (List.mem_filter.mpr ⟨listed', by simp [selected']⟩) same

theorem keyName_mem {key : GroupKey} (member : key ∈ a.keys) : key.name ∈ a.names := by
  rw [sound.names]
  exact List.mem_append_right _ (List.mem_append_left _ (List.mem_map_of_mem member))

theorem outputName_mem {output : Output} (member : output ∈ a.outputs) : output.name ∈ a.names := by
  cases key : output.isKey with
  | true =>
    unfold Output.isKey at key
    split at key
    · rename_i index is
      obtain ⟨-, key, found, same⟩ := (sound.outputs output member).of_key is
      exact same ▸ keyName_mem sound (List.mem_of_getElem? found)
    · cases key
  | false =>
    rw [sound.names]
    refine List.mem_append_right _ (List.mem_append_right _ (List.mem_map_of_mem ?_))
    exact List.mem_filter.mpr ⟨member, by simp [key]⟩

theorem fits_namingScope (timeStored : c.schema.isStored (c.timeColumn query) = true)
    (ok : c.carriedIn query a = .ok carried) :
    (c.namingScope a carried).Fits (c.takenNames a) (c.slots a.calls) := by
  have sharing := sharing_of_sound sound
  obtain ⟨-, -, origin, -⟩ := carriedIn_eq_ok ok
  have reads : ∀ slot ∈ c.slots a.calls, ∀ column ∈ slot.call.columns,
      c.schema.isStored column = true :=
    fun slot member => sound.reads slot.call (slot_of_call member).1
  -- All names that fields can collide with are names of the schema or of the columns of the result.
  refine ⟨fun slot member => (slot_of_call member).2,
    fun slot member column read => taken_of_isStored (reads slot member column read), ?_,
    fun output member => ?_, fun column member => ?_, ?_, fun name member => ?_⟩
  · exact selectedNames_eq sharing.each ▸ selectedNames_nodup sound
  · obtain ⟨original, listed, from_⟩ := related_of_mem_right sharing.each member
    rw [from_.name]
    exact List.mem_append_right _ (outputName_mem sound listed)
  · obtain ⟨slot, listed, read⟩ := origin column member
    rcases columns_slotColumns read with read | rfl
    · exact taken_of_isStored (reads slot listed column read)
    · exact taken_of_isStored timeStored
  · refine distinct_sharedNames sharing fun x listed y listed' is is' same => ?_
    exact output_unique sound listed listed' (Output.isKey_of_computed is)
      (Output.isKey_of_computed is') same
  · obtain ⟨part, listed, named⟩ := List.mem_filterMap.mp member
    rw [sharing.names part listed, wholeName?, Option.map_eq_some_iff] at named
    obtain ⟨original, found, rfl⟩ := named
    have is := List.find?_some found
    simp only [Bool.and_eq_true, Output.isComputed, beq_iff_eq] at is
    obtain ⟨output, listed, from_⟩ :=
      related_of_mem_left sharing.each (List.mem_of_find?_eq_some found)
    exact ⟨output, listed, from_.kind.trans is.1, from_.name⟩

end

namespace Prepares
variable (prepares : c.Prepares query seconds a carried)
include prepares

theorem analysis : a.Sound c query seconds := sound_analyze prepares.analyzed

theorem assigned : (c.namingScope a carried).Assigned (c.takenNames a) (c.slots a.calls)
    (c.named a carried).1 (c.named a carried).2 :=
  NamingScope.assigned_assign (fits_namingScope prepares.analysis prepares.stored prepares.carries)

theorem slot_unnamed {slot : AggregateSlot} (member : slot ∈ (c.named a carried).1) :
    slot.unnamed ∈ c.slots a.calls := by
  rw [← prepares.assigned.calls]
  exact List.mem_map_of_mem member

theorem call_mem {slot : AggregateSlot} (member : slot ∈ (c.named a carried).1) :
    slot.call ∈ a.calls := (slot_of_call (prepares.slot_unnamed member)).1

theorem tests_of_mem {condition : Condition} (member : condition ∈ a.conditions) :
    ∃ conjunct, (c.filterScope seconds a.keys a.outputs).Tests conjunct condition := by
  obtain ⟨conjunct, -, tests⟩ := related_of_mem_right prepares.analysis.conditions member
  exact ⟨conjunct, tests⟩

theorem stored_builder : (c.builder query seconds a carried).Stored c.schema where
  timeColumn := prepares.stored
  time range found := by
    obtain ⟨interval, -, rfl⟩ := Option.map_eq_some_iff.mp found
    rfl
  keys key member := by
    obtain ⟨dimension, found⟩ := prepares.analysis.dimensions key member
    exact isStored_of_dimension found
  slots slot member :=
    prepares.analysis.reads slot.call (prepares.call_mem member)
  carried column member := by
    obtain ⟨-, -, origin, -⟩ := carriedIn_eq_ok prepares.carries
    obtain ⟨slot, listed, read⟩ := origin column member
    rcases columns_slotColumns read with read | rfl
    · exact prepares.analysis.reads slot.call (slot_of_call listed).1 column read
    · exact prepares.stored
  conditions condition member name refers := by
    obtain ⟨conjunct, tests⟩ := prepares.tests_of_mem member
    exact (tests.column name refers).2

theorem shared_found {part : SharedExpr} (member : part ∈ (c.named a carried).2) :
    ∃ origin ∈ (c.sharing a).2, origin.expr = part.expr := by
  have listed := List.mem_map_of_mem (f := SharedExpr.expr) member
  rw [prepares.assigned.exprs] at listed
  exact List.mem_map.mp listed

theorem refers_builder : (c.builder query seconds a carried).Refers where
  outputs output member target refers := by
    obtain ⟨original, listed, from_⟩ :=
      related_of_mem_right (sharing_of_sound prepares.analysis).each member
    rcases from_.refers target refers with refers | ⟨index, rfl⟩
    · have is := (prepares.analysis.outputs original listed).isLifted target refers
      cases target <;> first | rfl | cases is
    · rfl
  computed output member is := by
    obtain ⟨original, listed, from_⟩ :=
      related_of_mem_right (sharing_of_sound prepares.analysis).each member
    have lifted := prepares.analysis.outputs original listed
    exact from_.compound (lifted.isCompound_of_computed (from_.kind.symm.trans is))
  shared part member target refers := by
    obtain ⟨origin, listed, same⟩ := prepares.shared_found member
    obtain ⟨output, among, refers⟩ :=
      (sharing_of_sound prepares.analysis).refers origin listed target (same ▸ refers)
    exact (prepares.analysis.outputs output among).isLifted target refers
  compound part member := by
    obtain ⟨origin, listed, same⟩ := prepares.shared_found member
    exact same ▸ (sharing_of_sound prepares.analysis).compound origin listed
  row condition member level target refers := by
    obtain ⟨conjunct, tests⟩ := prepares.tests_of_mem member
    have row := GroupExpr.level_eq_row.mp (tests.reached.trans level) target refers
    cases target with
    | column name => exact .inl ⟨name, rfl⟩
    | key index => exact .inr ⟨index, rfl⟩
    | _ => cases row
  group condition member level target refers := by
    obtain ⟨conjunct, tests⟩ := prepares.tests_of_mem member
    have early : condition.expr.level ≠ .output := by rw [tests.reached, level]; decide
    cases target with
    | column name => cases level.symm.trans (tests.column name refers).1
    | key index => rfl
    | aggregate index => rfl
    | shared index => exact absurd refers (tests.shared index)
    | output index => exact absurd (GroupExpr.level_eq_output.mpr ⟨_, refers, rfl⟩) early
  output condition member level target refers := by
    obtain ⟨conjunct, tests⟩ := prepares.tests_of_mem member
    cases target with
    | column name => cases level.symm.trans (tests.column name refers).1
    | key index => exact .inl rfl
    | aggregate index => exact .inl rfl
    | shared index => exact absurd refers (tests.shared index)
    | output index =>
      -- Sharing keeps the outputs in their places, so the place found before it is still right.
      obtain ⟨original, found, computed⟩ := tests.output index refers
      obtain ⟨output, found', from_⟩ :=
        related_getElem? (sharing_of_sound prepares.analysis).each found
      exact .inr ⟨index, output, rfl, found', from_.kind.trans computed⟩

theorem selected_builder : (c.builder query seconds a carried).selected.map (·.name) =
    (a.outputs.filter (!·.isKey)).map (·.name) :=
  selectedNames_eq (sharing_of_sound prepares.analysis).each

theorem names_builder : a.names = (c.builder query seconds a carried).bucketNames ++
    (c.builder query seconds a carried).keyNames ++
    (c.builder query seconds a carried).selected.map (·.name) := by
  rw [prepares.selected_builder, StageBuilder.bucketNames, isBucketed_builder prepares.bucket,
    List.append_assoc]
  exact prepares.analysis.names

theorem outputs_distinct : ((c.builder query seconds a carried).bucketNames ++
    (c.builder query seconds a carried).keyNames ++
    (c.builder query seconds a carried).selected.map (·.name)).Nodup :=
  prepares.names_builder ▸ prepares.analysis.distinct

theorem head_used {name : String}
    (member : name ∈ (c.builder query seconds a carried).bucketNames ++
      (c.builder query seconds a carried).keyNames) :
    name ∈ (c.namingScope a carried).usedNames ∧ name ∈ c.takenNames a := by
  refine ⟨?_, List.mem_append_right _ ?_⟩
  · rcases List.mem_append.mp member with bucket | key
    · exact (StageBuilder.mem_bucketNames.mp bucket).2 ▸ List.mem_cons_self
    · refine List.mem_cons_of_mem _ ?_
      exact List.mem_append_left _ (List.mem_append_left _ (List.mem_append_left _ key))
  · rw [prepares.names_builder]
    exact List.mem_append_left _ member

theorem output_not_head {output : Output} (member : output ∈ (c.namingScope a carried).outputs)
    (selected : output.isKey = false) :
    output.name ∉ (c.builder query seconds a carried).bucketNames ++
      (c.builder query seconds a carried).keyNames := by
  intro named
  have apart := (List.nodup_append.mp prepares.outputs_distinct).2.2
  refine apart output.name named output.name (List.mem_map_of_mem ?_) rfl
  exact List.mem_filter.mpr ⟨member, by simp [selected]⟩

/-- The names of aggregates and shared expressions are those of no bucket and no key. -/
theorem fields_distinct : ((c.builder query seconds a carried).bucketNames ++
    (c.builder query seconds a carried).keyNames ++
    (fieldNames (c.named a carried).1 ++ sharedNames (c.named a carried).2)).Nodup := by
  have assigned := prepares.assigned
  have heads := (List.nodup_append.mp prepares.outputs_distinct).1
  refine List.nodup_append.mpr ⟨heads, assigned.distinct, ?_⟩
  rintro name member other named rfl
  obtain ⟨used, taken⟩ := prepares.head_used member
  -- A name that was in use before is that of an output, and no output is named like a key.
  rcases List.mem_append.mp named with slotted | shared
  · obtain ⟨slot, listed, given⟩ := mem_fieldNames.mp slotted
    obtain ⟨index, found⟩ := List.mem_iff_getElem?.mp listed
    obtain ⟨output, among, is, rfl⟩ := assigned.slotUsed index slot name found given used taken
    exact prepares.output_not_head among (Output.isKey_of_aggregate is) member
  · obtain ⟨output, among, is, rfl⟩ := assigned.sharedUsed name shared taken
    exact prepares.output_not_head among (Output.isKey_of_computed is) member

theorem carried_distinct : ((c.builder query seconds a carried).keyNames ++ carried ++
    fieldNames (c.builder query seconds a carried).windowSlots).Nodup := by
  have assigned := prepares.assigned
  have heads := (List.nodup_append.mp prepares.outputs_distinct).1
  have windows : List.Sublist (fieldNames (c.builder query seconds a carried).windowSlots)
      (fieldNames (c.named a carried).1) := List.filter_sublist.filterMap _
  obtain ⟨once, apart, -, -⟩ := carriedIn_eq_ok prepares.carries
  have keys : ((c.builder query seconds a carried).keyNames ++ carried).Nodup := by
    refine List.nodup_append.mpr ⟨(List.nodup_append.mp heads).2.1, once, ?_⟩
    rintro name keyed other member rfl
    obtain ⟨key, listed, rfl⟩ := List.mem_map.mp keyed
    exact apart key listed member
  have results := (List.nodup_append.mp assigned.distinct).1.sublist windows
  refine List.nodup_append.mpr ⟨keys, results, ?_⟩
  rintro name member other windowed rfl
  rcases List.mem_append.mp member with keyed | member
  · exact (List.nodup_append.mp prepares.fields_distinct).2.2 name (List.mem_append_right _ keyed)
      name (List.mem_append_left _ (windows.subset windowed)) rfl
  · obtain ⟨slot, listed, given⟩ := mem_fieldNames.mp windowed
    obtain ⟨listed, is⟩ := List.mem_filter.mp listed
    exact assigned.carried slot listed is name given member

theorem output_of_slotName {index : Nat} {slot : AggregateSlot} {name : String}
    (found : (c.named a carried).1[index]? = some slot) (given : slot.name = some name)
    {output : Output} (member : output ∈ (c.builder query seconds a carried).selected)
    (same : output.name = name) : output.expr = .reference (.aggregate index) := by
  have fits := fits_namingScope prepares.analysis prepares.stored prepares.carries
  obtain ⟨among, selected⟩ := List.mem_filter.mp member
  have used : name ∈ (c.namingScope a carried).usedNames := by
    refine List.mem_cons_of_mem _ ?_
    exact List.mem_append_left _ (List.mem_append_left _ (List.mem_append_right _
      (List.mem_map.mpr ⟨output, among, same⟩)))
  have taken : name ∈ c.takenNames a := same ▸ fits.outputNames output among
  obtain ⟨other, among', is, same'⟩ :=
    prepares.assigned.slotUsed index slot name found given used taken
  obtain rfl := fits.output_unique among among' (by simpa using selected)
    (Output.isKey_of_aggregate is) (same.trans same'.symm)
  obtain ⟨original, listed, from_⟩ :=
    related_of_mem_right (sharing_of_sound prepares.analysis).each among
  have single : original.kind = .aggregate index := from_.kind.symm.trans is
  rw [from_.kept (by rw [Output.isComputed, single]; rfl)]
  exact (prepares.analysis.outputs original listed).expr_of_aggregate single

theorem distinct_builder : (c.builder query seconds a carried).Distinct where
  outputs := prepares.outputs_distinct
  fields := prepares.fields_distinct
  carried := prepares.carried_distinct
  slotOutput _ _ _ found given _ member same := prepares.output_of_slotName found given member same

theorem sound_builder :
    (c.builder query seconds a carried).Sound (c.layoutOf a) c.schema where
  stored := prepares.stored_builder
  refers := prepares.refers_builder
  distinct := prepares.distinct_builder
  grouped unwindowed slot member := by
    have listed := prepares.slot_unnamed member
    have none : (c.slots a.calls).any (·.windowed) = false := by
      by_contra some
      rw [layoutOf, layout, Layout.choose, if_pos (by simpa using some)] at unwindowed
      split at unwindowed <;> cases unwindowed
    exact Bool.eq_false_iff.mpr (List.any_eq_false.mp none slot.unnamed listed)
  carries windowed slot member computed column read := by
    obtain ⟨-, -, -, carries⟩ := carriedIn_eq_ok prepares.carries
    exact carries windowed slot.unnamed (prepares.slot_unnamed member) computed column read

end Prepares

end Compiler

/-! ## A query -/

def Schema.hosts : Schema where
  name := "hosts"
  table := "metrics"
  timestamp := "time"
  dimensions := [⟨"host", .string⟩, ⟨"region", .string⟩]
  metrics := [⟨"cpu", .float, .avg⟩, ⟨"mem", .int, .sum⟩]

def Compiler.hosts : Compiler where
  schema := .hosts
  dialect := Sql.Database.postgres.dialect

/-- The same on a database where names of fields are visible beside them. -/
def Compiler.clickhouseHosts : Compiler :=
  { hosts with dialect := Sql.Database.clickhouse.dialect }

/-- The hosts of a region whose load rises within a minute, with a condition of every level. -/
def Query.risingLoad : Query where
  selectors := [⟨.column "host", none⟩,
    ⟨.binary .sub (.call "last" [.column "cpu"]) (.call "first" [.column "cpu"]), some "change"⟩]
  filter := some (.binary .and
    (.binary .and (.binary .eq (.column "region") (.literal (.string "eu")))
      (.binary .gt (.call "sum" [.column "mem"]) (.literal (.int 10))))
    (.binary .gt (.column "change") (.literal (.int 0))))
  groupBy := ["host"]
  interval := some ⟨⟨0, 0⟩, ⟨3600, 0⟩, some ⟨60, .minutes⟩, none⟩

theorem Compiler.plan_risingLoad : ∃ plan, hosts.plan .risingLoad = .ok plan :=
  isSome_toOption.mp (by decide +kernel)

theorem Compiler.compile_risingLoad :
    ∃ compiled, hosts.compile .risingLoad true = .ok compiled :=
  isSome_toOption.mp (by decide +kernel)

theorem Compiler.plan_clickhouseRisingLoad :
    ∃ plan, clickhouseHosts.plan .risingLoad = .ok plan :=
  isSome_toOption.mp (by decide +kernel)

end Rollup
