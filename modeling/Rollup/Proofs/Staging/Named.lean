import Rollup.Proofs.Staging.FieldName

/-! Every field has a name, and no other aggregate has one.

Whatever is a field of a stage is given a name in some pass, and no later pass takes a name away. No
pass gives a name to an aggregate that is not read by name.
-/

set_option autoImplicit false

namespace Rollup.NamingScope

variable {scope : NamingScope}

/-- All aggregates that are read by name have one. -/
def AllNamed (scope : NamingScope) (slots : List AggregateSlot) : Prop :=
  ∀ index slot, slots[index]? = some slot → scope.isField index slot = true →
    slot.name.isSome = true

theorem allNamed_append {slots : List AggregateSlot} {slot : AggregateSlot}
    (named : scope.AllNamed slots)
    (last : scope.isField slots.length slot = true → slot.name.isSome = true) :
    scope.AllNamed (slots ++ [slot]) := by
  intro index other found is
  by_cases early : index < slots.length
  · rw [List.getElem?_append_left early] at found
    exact named index other found is
  · obtain ⟨bound, -⟩ := List.getElem?_eq_some_iff.mp found
    have place : index = slots.length := by
      rw [List.length_append, List.length_singleton] at bound
      omega
    rw [place, List.getElem?_concat_length] at found
    obtain rfl := Option.some.inj found
    exact last (place ▸ is)

theorem allNamed_nameSlots {before rest : List AggregateSlot} {names : FreshNames}
    (named : scope.AllNamed before) :
    scope.AllNamed ((scope.nameSlots before rest).run names).1 :=
  invariant_nameSlots (I := fun before _ _ => scope.AllNamed before)
    (fun step named => allNamed_append named fun is => by
      cases step with
      | kept given => exact given is
      | reused _ _ => rfl
      | fresh _ => rfl) named

theorem allNamed_renameWindow {slots slots' : List AggregateSlot} {names names' : FreshNames}
    (run : Runs (fun slot u slot' v => (scope.renameWindow slot).run u = (slot', v)) slots names
      slots' names')
    (named : scope.AllNamed slots) : scope.AllNamed slots' := by
  obtain ⟨-, each⟩ := run.invariant (I := fun _ => True)
    (G := fun slot slot' => slot'.windowed = slot.windowed ∧
      (slot.name.isSome = true → slot'.name.isSome = true))
    (fun slot _ slot' u v step _ => by
      rcases renameWindow_eq step with ⟨rfl, -⟩ | ⟨rfl, -⟩
      · exact ⟨trivial, rfl, fun _ => rfl⟩
      · exact ⟨trivial, rfl, id⟩) trivial
  intro index slot' found is
  obtain ⟨slot, place, windowed, kept⟩ := related_getElem? each.flip found
  rw [isField, windowed] at is
  exact kept (named index slot place is)

theorem isSome_nameShared {parts parts' : List SharedExpr} {names names' : FreshNames}
    (run : Runs (fun part u part' v => (nameShared part).run u = (part', v)) parts names parts'
      names') : ∀ part ∈ parts', part.name.isSome = true := by
  obtain ⟨-, each⟩ := run.invariant (I := fun _ => True)
    (G := fun _ part' => part'.name.isSome = true)
    (fun part _ part' u v step _ => by
      rcases nameShared_eq step with ⟨name, given, rfl, -⟩ | ⟨-, rfl, -⟩
      · exact ⟨trivial, by rw [given]; rfl⟩
      · exact ⟨trivial, rfl⟩) trivial
  intro part member
  obtain ⟨_, -, given⟩ := related_of_mem_right each member
  exact given

theorem allNamed_assign (scope : NamingScope) (slots : List AggregateSlot) (names : FreshNames) :
    scope.AllNamed ((scope.assign slots).run names).1.1 ∧
      ∀ part ∈ ((scope.assign slots).run names).1.2, part.name.isSome = true := by
  obtain ⟨between, windows, shared⟩ := passes_assign scope slots names
  have start : scope.AllNamed [] := fun _ _ found => nomatch found
  exact ⟨allNamed_renameWindow windows (allNamed_nameSlots start), isSome_nameShared shared⟩

/-! ## Nothing else has a name -/

/-- Only aggregates that are read by name have one. -/
def OnlyFieldsNamed (scope : NamingScope) (slots : List AggregateSlot) : Prop :=
  ∀ index slot, slots[index]? = some slot → slot.name.isSome = true →
    scope.isField index slot = true

theorem onlyFieldsNamed_nameAsOutput {slots : List AggregateSlot}
    (unnamed : ∀ slot ∈ slots, slot.name = none) :
    scope.OnlyFieldsNamed (slots.mapIdx scope.nameAsOutput) := by
  intro index slot found named
  rw [List.getElem?_mapIdx, Option.map_eq_some_iff] at found
  obtain ⟨origin, found, rfl⟩ := found
  unfold nameAsOutput at named ⊢
  split at named
  · rename_i is
    rw [if_pos is]
    exact is
  · rw [unnamed origin (List.mem_of_getElem? found)] at named
    cases named

theorem OnlyFieldsNamed.rename {before rest : List AggregateSlot} {slot : AggregateSlot}
    {name : String} (only : scope.OnlyFieldsNamed (before ++ slot :: rest))
    (is : scope.isField before.length slot = true) :
    scope.OnlyFieldsNamed (before ++ { slot with name := some name } :: rest) := by
  intro index other found given
  rcases getElem?_middle (y := slot) found with ⟨rfl, rfl⟩ | found
  · exact is
  · exact only index other found given

theorem onlyFieldsNamed_nameSlots {before rest : List AggregateSlot} {names : FreshNames}
    (only : scope.OnlyFieldsNamed (before ++ rest)) :
    scope.OnlyFieldsNamed ((scope.nameSlots before rest).run names).1 := by
  rw [← List.append_nil ((scope.nameSlots before rest).run names).1]
  refine invariant_nameSlots (I := fun before rest _ => scope.OnlyFieldsNamed (before ++ rest))
    (fun step only => ?_) only
  rw [← List.append_cons]
  cases step with
  | kept _ => exact only
  | reused is _ => exact only.rename is
  | fresh is => exact only.rename is

/-- A window result is a field in any case, so renaming it names nothing new. -/
theorem onlyFieldsNamed_renameWindow {slots slots' : List AggregateSlot} {names names' : FreshNames}
    (run : Runs (fun slot u slot' v => (scope.renameWindow slot).run u = (slot', v)) slots names
      slots' names')
    (only : scope.OnlyFieldsNamed slots) : scope.OnlyFieldsNamed slots' := by
  obtain ⟨-, each⟩ := run.invariant (I := fun _ => True)
    (G := fun slot slot' => slot' = slot ∨ slot'.windowed = true)
    (fun slot _ slot' u v step _ => by
      rcases renameWindow_eq step with ⟨rfl, -, windowed⟩ | ⟨rfl, -⟩
      · exact ⟨trivial, .inr windowed⟩
      · exact ⟨trivial, .inl rfl⟩) trivial
  intro index slot' found given
  obtain ⟨slot, place, kept⟩ := related_getElem? each.flip found
  rcases kept with rfl | windowed
  · exact only index slot' place given
  · rw [isField, windowed, Bool.true_or]

theorem onlyFieldsNamed_assign (scope : NamingScope) {slots : List AggregateSlot}
    (unnamed : ∀ slot ∈ slots, slot.name = none) (names : FreshNames) :
    scope.OnlyFieldsNamed ((scope.assign slots).run names).1.1 := by
  obtain ⟨between, windows, -⟩ := passes_assign scope slots names
  have start : scope.OnlyFieldsNamed ([] ++ slots.mapIdx scope.nameAsOutput) :=
    onlyFieldsNamed_nameAsOutput unnamed
  exact onlyFieldsNamed_renameWindow windows (onlyFieldsNamed_nameSlots start)

end Rollup.NamingScope
