import Rollup.Proofs.Staging.FieldName

/-! Where the names of fields come from.

An aggregate has the name of an output that it is, the name of its column, or a fresh one. It has
the name of its column only if nothing that is known to read single rows reads the column beside it.
A shared expression has the name of the output that it is, or a fresh one.
-/

set_option autoImplicit false

namespace Rollup.NamingScope

/-- What the name of an aggregate at an index is. -/
inductive Origin (scope : NamingScope) (taken : List String) (slots : List AggregateSlot)
    (index : Nat) (call : AggregateCall) (name : String) : Prop where
  | output (origin : Output) : origin ∈ scope.outputs → origin.name = name →
      Origin scope taken slots index call name
  /-- The aggregate is the only one that reads the column, and it is computed only once. -/
  | column : call.column? = some name → readers slots name = 1 → index ∉ scope.inlined →
      name ∉ scope.readColumns → name ∉ scope.usedNames →
      Origin scope taken slots index call name
  | fresh : name ∉ taken → Origin scope taken slots index call name

structure Traced (scope : NamingScope) (taken : List String) (slots current : List AggregateSlot)
    (names : FreshNames) : Prop where
  start : taken ⊆ names.taken
  calls : current.map (·.call) = slots.map (·.call)
  origin : ∀ index slot name, current[index]? = some slot → slot.name = some name →
    scope.Origin taken slots index slot.call name

variable {scope : NamingScope} {taken : List String} {slots : List AggregateSlot}

theorem readers_of_calls {slots slots' : List AggregateSlot} (column : String)
    (same : slots.map (·.call) = slots'.map (·.call)) :
    readers slots column = readers slots' column := by
  have counted : ∀ slots : List AggregateSlot, readers slots column =
      (slots.map (·.call)).countP fun call => call.columns.contains column := by
    intro slots
    rw [List.countP_map]
    rfl
  rw [counted, counted, same]

namespace Traced
variable {before after : List AggregateSlot} {slot : AggregateSlot} {name : String}
  {names names' : FreshNames}

theorem rename (traced : scope.Traced taken slots (before ++ slot :: after) names)
    (grows : names.taken ⊆ names'.taken)
    (origin : scope.Origin taken slots before.length slot.call name) :
    scope.Traced taken slots (before ++ { slot with name := some name } :: after) names' where
  start := List.Subset.trans traced.start grows
  calls := by
    rw [← traced.calls]
    simp
  origin index other given found named := by
    rcases getElem?_middle (y := slot) found with ⟨rfl, rfl⟩ | found
    · cases named
      exact origin
    · exact traced.origin index other given found named

theorem refresh (traced : scope.Traced taken slots (before ++ slot :: after) names) :
    scope.Traced taken slots (before ++ { slot with name := some names.fresh.1 } :: after)
      names.fresh.2 :=
  traced.rename (List.subset_cons_self _ _)
    (.fresh fun member => names.fresh_not_taken (traced.start member))

theorem reuse (traced : scope.Traced taken slots (before ++ slot :: after) names)
    (reused : scope.reused? (before ++ slot :: after) before.length slot = some name) :
    scope.Traced taken slots (before ++ { slot with name := some name } :: after) names := by
  obtain ⟨column, can⟩ := Option.filter_eq_some_iff.mp reused
  simp only [canReuse, Bool.and_eq_true, Bool.not_eq_true', List.contains_eq_mem,
    decide_eq_false_iff_not, beq_iff_eq] at can
  obtain ⟨⟨⟨⟨single, once⟩, unread⟩, unused⟩, -⟩ := can
  rw [readers_of_calls name traced.calls] at single
  exact traced.rename (fun _ => id) (.column column single once unread unused)

end Traced

theorem traced_nameAsOutput (unnamed : ∀ slot ∈ slots, slot.name = none) {names : FreshNames}
    (start : taken ⊆ names.taken) :
    scope.Traced taken slots (slots.mapIdx scope.nameAsOutput) names where
  start := start
  calls := by
    have same := congrArg (List.map (·.call)) (@unnamed_nameAsOutput scope slots unnamed)
    rwa [List.map_map] at same
  origin index slot name found named := by
    rw [List.getElem?_mapIdx, Option.map_eq_some_iff] at found
    obtain ⟨origin, found, rfl⟩ := found
    obtain ⟨output, listed, -, same⟩ :=
      output_of_nameAsOutput (unnamed origin (List.mem_of_getElem? found)) named
    exact .output output listed same

theorem traced_nameSlots {before rest : List AggregateSlot} {names : FreshNames}
    (traced : scope.Traced taken slots (before ++ rest) names) :
    scope.Traced taken slots ((scope.nameSlots before rest).run names).1
      ((scope.nameSlots before rest).run names).2 := by
  rw [← List.append_nil ((scope.nameSlots before rest).run names).1]
  refine invariant_nameSlots
    (I := fun before rest names => scope.Traced taken slots (before ++ rest) names)
    (fun step traced => ?_) traced
  rw [← List.append_cons]
  cases step with
  | kept _ => exact traced
  | reused _ reused => exact traced.reuse reused
  | fresh _ => exact traced.refresh

theorem traced_renameWindow {before rest rest' : List AggregateSlot} {names names' : FreshNames}
    (run : Runs (fun slot u slot' v => (scope.renameWindow slot).run u = (slot', v)) rest names
      rest' names')
    (traced : scope.Traced taken slots (before ++ rest) names) :
    scope.Traced taken slots (before ++ rest') names' := by
  induction run generalizing before with
  | nil => exact traced
  | @cons slot rest slot' others s t u first _ ih =>
    have step : scope.Traced taken slots (before ++ slot' :: rest) t := by
      rcases renameWindow_eq first with ⟨rfl, rfl, -⟩ | ⟨rfl, rfl, -⟩
      · exact traced.refresh
      · exact traced
    rw [List.append_cons] at step ⊢
    exact ih step

/-- A shared expression with a name that was taken had it from the start. -/
def KeepsName (taken : List String) (part part' : SharedExpr) : Prop :=
  part'.expr = part.expr ∧ ∀ name ∈ taken, part'.name = some name → part.name = some name

theorem keepsName_nameShared {parts parts' : List SharedExpr} {names names' : FreshNames}
    (run : Runs (fun part u part' v => (nameShared part).run u = (part', v)) parts names parts'
      names')
    (start : taken ⊆ names.taken) : List.Forall₂ (KeepsName taken) parts parts' := by
  induction run with
  | nil => exact .nil
  | @cons part rest part' others s t u first _ ih =>
    rcases nameShared_eq first with ⟨name, given, rfl, rfl⟩ | ⟨absent, rfl, rfl⟩
    · exact .cons ⟨rfl, fun _ _ => id⟩ (ih start)
    · refine .cons ⟨rfl, fun name member same => ?_⟩
        (ih (List.Subset.trans start (List.subset_cons_self _ _)))
      cases same
      exact absurd (start member) s.fresh_not_taken

theorem traced_assign (unnamed : ∀ slot ∈ slots, slot.name = none) :
    (∃ names, scope.Traced taken slots ((scope.assign slots).run (.ofTaken taken)).1.1 names) ∧
      List.Forall₂ (KeepsName taken) scope.shared
        ((scope.assign slots).run (.ofTaken taken)).1.2 := by
  obtain ⟨between, windows, shared⟩ := passes_assign scope slots (.ofTaken taken)
  have outputs : scope.Traced taken slots ([] ++ slots.mapIdx scope.nameAsOutput)
      (.ofTaken taken) := traced_nameAsOutput unnamed fun _ => id
  have fields : scope.Traced taken slots
      ([] ++ ((scope.nameSlots [] (slots.mapIdx scope.nameAsOutput)).run (.ofTaken taken)).1) _ :=
    traced_nameSlots outputs
  have traced := traced_renameWindow windows fields
  exact ⟨⟨between, traced⟩, keepsName_nameShared shared traced.start⟩

end Rollup.NamingScope
