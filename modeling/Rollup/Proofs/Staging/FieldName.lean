import Mathlib.Data.List.Nodup
import Rollup.Proofs.Computation
import Rollup.Proofs.Group.Output
import Rollup.Proofs.Staging.FreshName
import Rollup.Staging.FieldName

/-! The names of fields are different.

While names are given, those that are given already stay different and stay taken. An aggregate
shares a name with a key, an output, a column that is passed on or a shared expression only if it is
the output of this name, and a shared expression only with the output that it is.
-/

set_option autoImplicit false

namespace Rollup

def fieldNames (slots : List AggregateSlot) : List String := slots.filterMap (·.name)

def sharedNames (shared : List SharedExpr) : List String := shared.filterMap (·.name)

def AggregateSlot.unnamed (slot : AggregateSlot) : AggregateSlot := { slot with name := none }

theorem fieldNames_append (before after : List AggregateSlot) :
    fieldNames (before ++ after) = fieldNames before ++ fieldNames after :=
  List.filterMap_append

theorem mem_fieldNames {slots : List AggregateSlot} {name : String} :
    name ∈ fieldNames slots ↔ ∃ slot ∈ slots, slot.name = some name := by
  simp [fieldNames]

theorem AggregateCall.mem_columns {call : AggregateCall} {name : String}
    (is : call.column? = some name) : name ∈ call.columns := by
  unfold column? at is
  split at is
  · rename_i arg
    cases is
    simp [columns, arg]
  · cases is

namespace NamingScope

/-- What the giving of names relies on, where some names are taken from the start. -/
structure Fits (scope : NamingScope) (taken : List String) (slots : List AggregateSlot) : Prop where
  unnamed : ∀ slot ∈ slots, slot.name = none
  reads : ∀ slot ∈ slots, ∀ column ∈ slot.call.columns, column ∈ taken
  outputs : ((scope.outputs.filter (!·.isKey)).map (·.name)).Nodup
  outputNames : ∀ output ∈ scope.outputs, output.name ∈ taken
  carried : scope.carried ⊆ taken
  distinct : (sharedNames scope.shared).Nodup
  shared : ∀ name ∈ sharedNames scope.shared,
    ∃ output ∈ scope.outputs, output.kind = .computed ∧ output.name = name

-- The invariant of the giving of names. A collision takes a name that is in use and was taken from
-- the start; a fresh name was not taken, and the name of a column is reused if it is not in use.

/-- Aggregates whose names are different and taken, and in use otherwise only as outputs. -/
structure Named (scope : NamingScope) (taken : List String) (slots : List AggregateSlot)
    (names : FreshNames) : Prop where
  start : taken ⊆ names.taken
  listed : fieldNames slots ⊆ names.taken
  distinct : (fieldNames slots).Nodup
  used : ∀ index slot name, slots[index]? = some slot → slot.name = some name →
    name ∈ scope.usedNames → name ∈ taken →
    ∃ output ∈ scope.outputs, output.kind = .aggregate index ∧ output.name = name

variable {scope : NamingScope} {taken : List String} {slots : List AggregateSlot}

theorem Fits.output_unique (fits : scope.Fits taken slots) {a b : Output}
    (listed : a ∈ scope.outputs) (listed' : b ∈ scope.outputs) (selected : a.isKey = false)
    (selected' : b.isKey = false) (same : a.name = b.name) : a = b :=
  List.inj_on_of_nodup_map fits.outputs (List.mem_filter.mpr ⟨listed, by simp [selected]⟩)
    (List.mem_filter.mpr ⟨listed', by simp [selected']⟩) same

/-! ## Outputs -/

theorem output_of_nameAsOutput {index : Nat} {slot : AggregateSlot} {name : String}
    (unnamed : slot.name = none) (named : (scope.nameAsOutput index slot).name = some name) :
    ∃ output ∈ scope.outputs, output.kind = .aggregate index ∧ output.name = name := by
  unfold nameAsOutput at named
  split at named
  · obtain ⟨output, found, same⟩ := Option.map_eq_some_iff.mp named
    exact ⟨output, List.mem_of_find?_eq_some found, by simpa using List.find?_some found, same⟩
  · rw [unnamed] at named
    cases named

theorem unnamed_nameAsOutput (unnamed : ∀ slot ∈ slots, slot.name = none) :
    (slots.mapIdx scope.nameAsOutput).map (·.unnamed) = slots := by
  refine List.ext_getElem? fun index => ?_
  rw [List.getElem?_map, List.getElem?_mapIdx]
  cases found : slots[index]? with
  | none => rfl
  | some slot =>
    have kept : (scope.nameAsOutput index slot).unnamed = slot.unnamed := by
      unfold nameAsOutput
      split <;> rfl
    have same : slot.unnamed = slot := by
      rw [AggregateSlot.unnamed, ← unnamed slot (List.mem_of_getElem? found)]
    exact congrArg some (kept.trans same)

theorem named_nameAsOutput (fits : scope.Fits taken slots) {names : FreshNames}
    (start : taken ⊆ names.taken) :
    scope.Named taken (slots.mapIdx scope.nameAsOutput) names := by
  -- So far the only names are those of outputs, and each output is a single aggregate.
  have used : ∀ index slot name, (slots.mapIdx scope.nameAsOutput)[index]? = some slot →
      slot.name = some name →
      ∃ output ∈ scope.outputs, output.kind = .aggregate index ∧ output.name = name := by
    intro index slot name found named
    rw [List.getElem?_mapIdx, Option.map_eq_some_iff] at found
    obtain ⟨origin, found, rfl⟩ := found
    exact output_of_nameAsOutput (fits.unnamed origin (List.mem_of_getElem? found)) named
  refine ⟨start, fun name member => ?_, ?_, fun index slot name found named _ _ =>
    used index slot name found named⟩
  · obtain ⟨slot, listed, named⟩ := mem_fieldNames.mp member
    obtain ⟨index, found⟩ := List.mem_iff_getElem?.mp listed
    obtain ⟨output, listed, -, rfl⟩ := used index slot name found named
    exact start (fits.outputNames output listed)
  · rw [fieldNames, List.Nodup, List.pairwise_filterMap, List.pairwise_iff_getElem]
    rintro i j first second before name named other named' rfl
    obtain ⟨a, listed, is, same⟩ := used i _ name (List.getElem?_eq_getElem first) named
    obtain ⟨b, listed', is', same'⟩ := used j _ name (List.getElem?_eq_getElem second) named'
    have equal := fits.output_unique listed listed' (Output.isKey_of_aggregate is)
      (Output.isKey_of_aggregate is') (same.trans same'.symm)
    rw [equal, is'] at is
    cases is
    exact Nat.lt_irrefl _ before

/-! ## One name -/

theorem getElem?_middle {α : Type} {before after : List α} {x y z : α} {index : Nat}
    (found : (before ++ x :: after)[index]? = some z) :
    index = before.length ∧ z = x ∨ (before ++ y :: after)[index]? = some z := by
  rw [List.getElem?_append] at found ⊢
  split at found
  · rename_i early
    rw [if_pos early]
    exact .inr found
  · rename_i late
    rw [if_neg late]
    cases place : index - before.length with
    | zero =>
      rw [place] at found
      exact .inl ⟨by omega, (Option.some.inj found).symm⟩
    | succ rest =>
      rw [place] at found
      exact .inr found

theorem Named.rename {before after : List AggregateSlot} {slot : AggregateSlot} {name : String}
    {names names' : FreshNames} (named : scope.Named taken (before ++ slot :: after) names)
    (grows : names.taken ⊆ names'.taken) (listed : name ∈ names'.taken)
    (free : name ∉ fieldNames (before ++ slot :: after))
    (unused : name ∈ scope.usedNames → name ∉ taken) :
    scope.Named taken (before ++ { slot with name := some name } :: after) names' := by
  have renamed : fieldNames (before ++ { slot with name := some name } :: after) =
      fieldNames before ++ name :: fieldNames after := by
    rw [fieldNames_append]
    rfl
  -- The old name of the aggregate may have been among the names; it is gone.
  have others : List.Sublist (fieldNames before ++ fieldNames after)
      (fieldNames (before ++ slot :: after)) := by
    rw [fieldNames_append]
    exact (List.Sublist.refl _).append ((List.sublist_cons_self slot after).filterMap _)
  refine ⟨List.Subset.trans named.start grows, ?_, ?_, ?_⟩
  · rw [renamed]
    intro other member
    rcases List.mem_append.mp member with member | member
    · exact grows (named.listed (others.subset (List.mem_append_left _ member)))
    · rcases List.mem_cons.mp member with rfl | member
      · exact listed
      · exact grows (named.listed (others.subset (List.mem_append_right _ member)))
  · rw [renamed, List.nodup_middle]
    exact List.nodup_cons.mpr ⟨fun member => free (others.subset member),
      named.distinct.sublist others⟩
  · intro index other otherName found given used start
    rcases getElem?_middle (y := slot) found with ⟨-, rfl⟩ | found
    · cases given
      exact absurd start (unused used)
    · exact named.used index other otherName found given used start

theorem Named.refresh {before after : List AggregateSlot} {slot : AggregateSlot}
    {names : FreshNames} (named : scope.Named taken (before ++ slot :: after) names) :
    scope.Named taken (before ++ { slot with name := some names.fresh.1 } :: after)
      names.fresh.2 :=
  named.rename (List.subset_cons_self _ _) List.mem_cons_self
    (fun member => names.fresh_not_taken (named.listed member))
    fun _ member => names.fresh_not_taken (named.start member)

/-! ## All names -/

theorem reused?_eq_some {index : Nat} {slot : AggregateSlot} {name : String}
    (found : scope.reused? slots index slot = some name) :
    name ∈ slot.call.columns ∧ name ∉ scope.usedNames ∧ name ∉ fieldNames slots := by
  obtain ⟨column, can⟩ := Option.filter_eq_some_iff.mp found
  simp only [canReuse, Bool.and_eq_true, Bool.not_eq_true', List.contains_eq_mem,
    decide_eq_false_iff_not] at can
  exact ⟨AggregateCall.mem_columns column, can.1.2, can.2⟩

/-- What becomes of an aggregate when fields are named, where those before it have been looked
at. -/
inductive NameStep (scope : NamingScope) (before : List AggregateSlot) (slot : AggregateSlot)
    (rest : List AggregateSlot) (names : FreshNames) : AggregateSlot → FreshNames → Prop where
  | kept (given : scope.isField before.length slot = true → slot.name.isSome = true) :
      NameStep scope before slot rest names slot names
  | reused {name : String} (is : scope.isField before.length slot = true)
      (reused : scope.reused? (before ++ slot :: rest) before.length slot = some name) :
      NameStep scope before slot rest names { slot with name := some name } names
  | fresh (is : scope.isField before.length slot = true) :
      NameStep scope before slot rest names { slot with name := some names.fresh.1 } names.fresh.2

theorem nameSlots_cons (scope : NamingScope) (before : List AggregateSlot) (slot : AggregateSlot)
    (rest : List AggregateSlot) (names : FreshNames) :
    ∃ slot' names', NameStep scope before slot rest names slot' names' ∧
      (scope.nameSlots before (slot :: rest)).run names =
        (scope.nameSlots (before ++ [slot']) rest).run names' := by
  rw [nameSlots]
  split
  · rename_i kept
    exact ⟨slot, names, .kept fun is => by simpa [is] using kept, rfl⟩
  · rename_i lacking
    have is : scope.isField before.length slot = true := by
      by_contra other
      simp [other] at lacking
    split
    · rename_i name reused
      exact ⟨_, names, .reused is reused, rfl⟩
    · exact ⟨_, _, .fresh is, rfl⟩

-- Whatever an aggregate is called, it goes to the end of those that have been looked at.
theorem invariant_nameSlots {I : List AggregateSlot → List AggregateSlot → FreshNames → Prop}
    (keeps : ∀ {before slot rest names slot' names'},
      NameStep scope before slot rest names slot' names' → I before (slot :: rest) names →
        I (before ++ [slot']) rest names')
    {before rest : List AggregateSlot} {names : FreshNames} (start : I before rest names) :
    I ((scope.nameSlots before rest).run names).1 []
      ((scope.nameSlots before rest).run names).2 := by
  induction rest generalizing before names with
  | nil => exact start
  | cons slot rest ih =>
    obtain ⟨slot', names', step, result⟩ := nameSlots_cons scope before slot rest names
    rw [result]
    exact ih (keeps step start)

theorem NameStep.unnamed {before rest : List AggregateSlot} {slot slot' : AggregateSlot}
    {names names' : FreshNames} (step : NameStep scope before slot rest names slot' names') :
    slot'.unnamed = slot.unnamed := by
  cases step <;> rfl

theorem unnamed_nameSlots {before rest : List AggregateSlot} {names : FreshNames} :
    ((scope.nameSlots before rest).run names).1.map (·.unnamed) =
      (before ++ rest).map (·.unnamed) := by
  rw [← List.append_nil ((scope.nameSlots before rest).run names).1]
  exact invariant_nameSlots
    (I := fun before' rest' _ =>
      (before' ++ rest').map (·.unnamed) = (before ++ rest).map (·.unnamed))
    (fun step same => by simpa [step.unnamed] using same) rfl

theorem Named.step {before rest : List AggregateSlot} {slot slot' : AggregateSlot}
    {names names' : FreshNames} (reads : ∀ column ∈ slot.call.columns, column ∈ taken)
    (named : scope.Named taken (before ++ slot :: rest) names)
    (step : NameStep scope before slot rest names slot' names') :
    scope.Named taken (before ++ slot' :: rest) names' := by
  cases step with
  | kept _ => exact named
  | @reused name _ reused =>
    obtain ⟨column, unused, free⟩ := reused?_eq_some reused
    exact named.rename (fun _ => id) (named.start (reads name column)) free
      fun used => absurd used unused
  | fresh _ => exact named.refresh

theorem named_nameSlots {before rest : List AggregateSlot} {names : FreshNames}
    (reads : ∀ slot ∈ rest, ∀ column ∈ slot.call.columns, column ∈ taken)
    (named : scope.Named taken (before ++ rest) names) :
    scope.Named taken ((scope.nameSlots before rest).run names).1
      ((scope.nameSlots before rest).run names).2 := by
  obtain ⟨-, kept⟩ := invariant_nameSlots
    (I := fun before rest names => (∀ slot ∈ rest, ∀ column ∈ slot.call.columns, column ∈ taken) ∧
      scope.Named taken (before ++ rest) names)
    (fun step ⟨reads, named⟩ => by
      obtain ⟨first, others⟩ := List.forall_mem_cons.mp reads
      rw [← List.append_cons]
      exact ⟨others, named.step first step⟩) ⟨reads, named⟩
  rwa [List.append_nil] at kept

theorem renameWindow_eq {slot slot' : AggregateSlot} {names names' : FreshNames}
    (run : (scope.renameWindow slot).run names = (slot', names')) :
    (slot' = { slot with name := some names.fresh.1 } ∧ names' = names.fresh.2 ∧
        slot.windowed = true) ∨
      slot' = slot ∧ names' = names ∧
        (slot.windowed = true → ∀ name, slot.name = some name → name ∉ scope.carried) := by
  unfold renameWindow at run
  split at run
  · rename_i hidden
    have renamed : ({ slot with name := some names.fresh.1 }, names.fresh.2) = (slot', names') :=
      run
    obtain ⟨rfl, rfl⟩ := Prod.mk.inj renamed
    exact .inl ⟨rfl, rfl, (Bool.and_eq_true_iff.mp hidden).1⟩
  · rename_i kept
    cases run
    refine .inr ⟨rfl, rfl, fun windowed name given member => kept ?_⟩
    rw [windowed, given]
    exact List.contains_iff_mem.mpr member

theorem named_renameWindow (fits : scope.Fits taken slots)
    {before rest rest' : List AggregateSlot} {names names' : FreshNames}
    (run : Runs (fun slot u slot' v => (scope.renameWindow slot).run u = (slot', v)) rest names
      rest' names')
    (named : scope.Named taken (before ++ rest) names) :
    scope.Named taken (before ++ rest') names' ∧
      rest'.map (·.unnamed) = rest.map (·.unnamed) ∧
      ∀ slot ∈ rest', slot.windowed = true → ∀ name, slot.name = some name →
        name ∉ scope.carried := by
  induction run generalizing before with
  | nil => exact ⟨named, rfl, fun slot member => absurd member List.not_mem_nil⟩
  | @cons slot rest slot' others s t u first _ ih =>
    have step : scope.Named taken (before ++ slot' :: rest) t ∧ slot'.unnamed = slot.unnamed ∧
        (slot'.windowed = true → ∀ name, slot'.name = some name → name ∉ scope.carried) := by
      rcases renameWindow_eq first with ⟨rfl, rfl, -⟩ | ⟨rfl, rfl, apart⟩
      · refine ⟨named.refresh, rfl, fun _ name same member => ?_⟩
        cases same
        exact s.fresh_not_taken (named.start (fits.carried member))
      · exact ⟨named, rfl, apart⟩
    rw [List.append_cons] at step
    obtain ⟨result, shapes, carried⟩ := ih step.1
    refine ⟨?_, congrArg₂ List.cons step.2.1 shapes, fun other member => ?_⟩
    · rw [List.append_cons]
      exact result
    · rcases List.mem_cons.mp member with rfl | member
      · exact step.2.2
      · exact carried other member

/-! ## Shared expressions -/

/-- A shared expression keeps the name of the output that it is, or has a fresh one. -/
theorem nameShared_eq {part part' : SharedExpr} {names names' : FreshNames}
    (run : (nameShared part).run names = (part', names')) :
    (∃ name, part.name = some name ∧ part' = part ∧ names' = names) ∨
      part.name = none ∧ part' = { part with name := some names.fresh.1 } ∧
        names' = names.fresh.2 := by
  unfold nameShared at run
  split at run
  · rename_i name given
    cases run
    exact .inl ⟨name, given, rfl, rfl⟩
  · rename_i absent
    have renamed : ({ part with name := some names.fresh.1 }, names.fresh.2) = (part', names') :=
      run
    obtain ⟨rfl, rfl⟩ := Prod.mk.inj renamed
    exact .inr ⟨absent, rfl, rfl⟩

theorem sharedNames_cons {part : SharedExpr} {name : String} (given : part.name = some name)
    (rest : List SharedExpr) : sharedNames (part :: rest) = name :: sharedNames rest :=
  List.filterMap_cons_some given

theorem nodup_fresh {names : FreshNames} {before after : List String}
    (distinct : (before ++ after).Nodup) (listed : before ++ after ⊆ names.taken) :
    (before ++ names.fresh.1 :: after).Nodup := by
  rw [List.nodup_middle]
  exact List.nodup_cons.mpr ⟨fun member => names.fresh_not_taken (listed member), distinct⟩

theorem listed_fresh {names : FreshNames} {before after : List String}
    (listed : before ++ after ⊆ names.taken) :
    before ++ names.fresh.1 :: after ⊆ names.fresh.2.taken := by
  intro name member
  rcases List.mem_cons.mp (List.perm_middle.subset member) with rfl | member
  · exact List.mem_cons_self
  · exact List.mem_cons_of_mem _ (listed member)

-- The names before the rest are those that are given already. They are a list of names rather than
-- one of shared expressions, since the names of aggregates come before them.
theorem distinct_nameShared {before : List String} {rest rest' : List SharedExpr}
    {names names' : FreshNames}
    (run : Runs (fun part u part' v => (nameShared part).run u = (part', v)) rest names rest'
      names')
    (distinct : (before ++ sharedNames rest).Nodup)
    (listed : before ++ sharedNames rest ⊆ names.taken) (start : taken ⊆ names.taken) :
    (before ++ sharedNames rest').Nodup ∧ rest'.map (·.expr) = rest.map (·.expr) ∧
      ∀ name ∈ sharedNames rest', name ∈ taken → name ∈ sharedNames rest := by
  induction run generalizing before with
  | nil => exact ⟨distinct, rfl, fun name member _ => member⟩
  | @cons part rest part' others s t u first _ ih =>
    rcases nameShared_eq first with ⟨name, given, rfl, rfl⟩ | ⟨absent, rfl, rfl⟩
    · rw [sharedNames_cons given, List.append_cons] at distinct listed
      obtain ⟨result, exprs, old⟩ := ih distinct listed start
      rw [sharedNames_cons given, sharedNames_cons given, List.append_cons]
      refine ⟨result, congrArg (part'.expr :: ·) exprs, fun other member within => ?_⟩
      rcases List.mem_cons.mp member with rfl | member
      · exact List.mem_cons_self
      · exact List.mem_cons_of_mem _ (old other member within)
    · have none : sharedNames (part :: rest) = sharedNames rest :=
        List.filterMap_cons_none absent
      rw [none] at distinct listed ⊢
      have apart := nodup_fresh distinct listed
      have listed' := listed_fresh listed
      rw [List.append_cons] at apart listed'
      obtain ⟨result, exprs, old⟩ :=
        ih apart listed' (List.Subset.trans start (List.subset_cons_self _ _))
      rw [sharedNames_cons rfl, List.append_cons]
      refine ⟨result, congrArg (part.expr :: ·) exprs, fun other member within => ?_⟩
      rcases List.mem_cons.mp member with rfl | member
      · exact absurd (start within) s.fresh_not_taken
      · exact old other member within

/-! ## The result -/

/-- What aggregates and shared expressions are when they have their names. -/
structure Assigned (scope : NamingScope) (taken : List String) (slots slots' : List AggregateSlot)
    (shared : List SharedExpr) : Prop where
  calls : slots'.map (·.unnamed) = slots
  exprs : shared.map (·.expr) = scope.shared.map (·.expr)
  distinct : (fieldNames slots' ++ sharedNames shared).Nodup
  slotUsed : ∀ index slot name, slots'[index]? = some slot → slot.name = some name →
    name ∈ scope.usedNames → name ∈ taken →
    ∃ output ∈ scope.outputs, output.kind = .aggregate index ∧ output.name = name
  sharedUsed : ∀ name ∈ sharedNames shared, name ∈ taken →
    ∃ output ∈ scope.outputs, output.kind = .computed ∧ output.name = name
  carried : ∀ slot ∈ slots', slot.windowed = true → ∀ name, slot.name = some name →
    name ∉ scope.carried

/-- An aggregate and a shared expression are never the same output, so they share no name. -/
theorem Named.apart {slots' : List AggregateSlot} {names : FreshNames}
    (named : scope.Named taken slots' names) (fits : scope.Fits taken slots) :
    (fieldNames slots' ++ sharedNames scope.shared).Nodup := by
  refine List.nodup_append.mpr ⟨named.distinct, fits.distinct, ?_⟩
  rintro name member other shared rfl
  obtain ⟨output, listed, computed, same⟩ := fits.shared name shared
  obtain ⟨slot, slotted, given⟩ := mem_fieldNames.mp member
  obtain ⟨index, found⟩ := List.mem_iff_getElem?.mp slotted
  have used : name ∈ scope.usedNames := List.mem_cons_of_mem _ (List.mem_append_right _ shared)
  obtain ⟨output', listed', single, same'⟩ :=
    named.used index slot name found given used (same ▸ fits.outputNames output listed)
  have equal := fits.output_unique listed listed' (Output.isKey_of_computed computed)
    (Output.isKey_of_aggregate single) (same.trans same'.symm)
  rw [equal, single] at computed
  cases computed

/-- The passes one after another: outputs and fields, then windows, then shared expressions. -/
theorem passes_assign (scope : NamingScope) (slots : List AggregateSlot) (names : FreshNames) :
    ∃ between,
      Runs (fun slot u slot' v => (scope.renameWindow slot).run u = (slot', v))
        ((scope.nameSlots [] (slots.mapIdx scope.nameAsOutput)).run names).1
        ((scope.nameSlots [] (slots.mapIdx scope.nameAsOutput)).run names).2
        ((scope.assign slots).run names).1.1 between ∧
      Runs (fun part u part' v => (nameShared part).run u = (part', v)) scope.shared between
        ((scope.assign slots).run names).1.2 ((scope.assign slots).run names).2 :=
  ⟨_, runs_mapM scope.renameWindow _ _, runs_mapM nameShared scope.shared _⟩

theorem assigned_assign (fits : scope.Fits taken slots) :
    scope.Assigned taken slots ((scope.assign slots).run (.ofTaken taken)).1.1
      ((scope.assign slots).run (.ofTaken taken)).1.2 := by
  obtain ⟨between, windows, shared⟩ := passes_assign scope slots (.ofTaken taken)
  have outputs : scope.Named taken ([] ++ slots.mapIdx scope.nameAsOutput) (.ofTaken taken) :=
    named_nameAsOutput fits fun _ => id
  have given : scope.Named taken
      ([] ++ ((scope.nameSlots [] (slots.mapIdx scope.nameAsOutput)).run (.ofTaken taken)).1) _ :=
    named_nameSlots (fun slot member => by
      have listed := List.mem_map_of_mem (f := AggregateSlot.unnamed) member
      rw [unnamed_nameAsOutput fits.unnamed] at listed
      exact fits.reads slot.unnamed listed) outputs
  obtain ⟨named, shapes, carried⟩ := named_renameWindow fits windows given
  have listed : fieldNames ((scope.assign slots).run (.ofTaken taken)).1.1 ++
      sharedNames scope.shared ⊆ between.taken := by
    intro name member
    rcases List.mem_append.mp member with member | member
    · exact named.listed member
    · obtain ⟨output, listed, -, rfl⟩ := fits.shared name member
      exact named.start (fits.outputNames output listed)
  obtain ⟨distinct, exprs, old⟩ :=
    distinct_nameShared shared (named.apart fits) listed named.start
  refine ⟨?_, exprs, distinct, named.used, fun name member within =>
    fits.shared name (old name member within), carried⟩
  rw [shapes, unnamed_nameSlots, List.nil_append, unnamed_nameAsOutput fits.unnamed]

end NamingScope

end Rollup
