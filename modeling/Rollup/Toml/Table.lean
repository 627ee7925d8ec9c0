import Rollup.Toml.Basic

/-! Building the table of a document from its statements.

A table is stated by a header at most once, and not after a key or a dotted key has made it. A
table that is only implied by longer headers can still be stated. Inline tables and arrays of values
are closed, while a header in double brackets adds to its array, and everything below it belongs to
the last item.
-/

set_option autoImplicit false

namespace Rollup.Toml

def addNewKey? (key : String) (value : Value) (members : Members) : Option Members :=
  if (members.lookup key).isSome then none else some (members ++ [(key, value)])

def replaceKey (key : String) (value : Value) (members : Members) : Members :=
  members.map fun entry => if entry.1 == key then (key, value) else entry

/-- Change the table at the end of a path. Tables that are missing on the way are made; the flag
says whether the path is that of a dotted key. -/
def updateAt? (keyed : Bool) (change : Origin → Members → Option Members) :
    List String → Origin → Members → Option Members
  | [], origin, members => change origin members
  | name :: rest, _, members =>
    match members.lookup name with
    | none => do
      let made : Origin := if keyed then .dotted else .implied
      let inner ← updateAt? keyed change rest made []
      return members ++ [(name, .table made inner)]
    | some (.table origin inner) =>
      if origin = .inline ∨ (keyed = true ∧ origin = .header) then none
      else do
        let inner ← updateAt? keyed change rest origin inner
        return replaceKey name (.table origin inner) members
    | some (.tables items) =>
      match items.getLast? with
      | none => none
      | some last => do
        let last ← updateAt? keyed change rest .header last
        return replaceKey name (.tables (items.dropLast ++ [last])) members
    | some _ => none

def assign? (path : List String) (key : String) (value : Value) (origin : Origin)
    (members : Members) : Option Members :=
  updateAt? true
    (fun reached inner =>
      -- A table that is not made by dotted keys takes none.
      if path.isEmpty || reached = .dotted then addNewKey? key value inner else none)
    path origin members

def stateTable? (key : String) (_ : Origin) (members : Members) : Option Members :=
  match members.lookup key with
  | none => some (members ++ [(key, .table .header [])])
  | some (.table .implied inner) => some (replaceKey key (.table .header inner) members)
  | some _ => none

def stateItem? (key : String) (_ : Origin) (members : Members) : Option Members :=
  match members.lookup key with
  | none => some (members ++ [(key, .tables [[]])])
  | some (.tables items) => some (replaceKey key (.tables (items ++ [[]])) members)
  | some _ => none

/-- The members of a document, and the path of the table that keys go to now. -/
structure Building where
  current : List String
  members : Members

def Building.step? (building : Building) : Statement → Option Building
  | .assign path key value => do
    let members ← updateAt? false (assign? path key value) building.current .header
      building.members
    return { building with members }
  | .header path key => do
    let members ← updateAt? false (stateTable? key) path .header building.members
    return ⟨path ++ [key], members⟩
  | .item path key => do
    let members ← updateAt? false (stateItem? key) path .header building.members
    return ⟨path ++ [key], members⟩

def build? (statements : List Statement) : Option Members :=
  (statements.foldlM Building.step? ⟨[], []⟩).map (·.members)

def inlineMembers? (statements : List (List String × String × Value)) : Option Members :=
  statements.foldlM (fun members (path, key, value) => assign? path key value .inline members) []

end Rollup.Toml
