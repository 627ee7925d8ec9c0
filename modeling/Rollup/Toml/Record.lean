import Rollup.Toml.Basic

/-! Reading records out of TOML values.

A record is written as a table, in which keys that are no fields are skipped, or as an array of its
fields in order, in which further items are skipped. A value that is skipped in a table is still
read, so its numbers count, while one that is skipped in an array is not looked at. A date or a time
is a record without any of its fields.
-/

set_option autoImplicit false

namespace Rollup.Toml

def canSkip (names : List String) (members : Members) : Bool :=
  members.all fun entry => names.contains entry.1 || entry.2.isReadable

/-- The values of named fields. An array for a record that is not `partly` given holds all. -/
def fields? (partly : Bool) (names : List String) : Value → Option (List (Option Value))
  | .table _ members =>
    if canSkip names members then some (names.map fun name => members.lookup name) else none
  | .time _ => some (names.map fun _ => none)
  | .array items =>
    if partly || names.length ≤ items.length then
      some ((List.range names.length).map fun index => items[index]?)
    else none
  | .tables items =>
    if partly || names.length ≤ items.length then
      some ((List.range names.length).map fun index => (items[index]?).map (.table .header))
    else none
  | _ => none

def optional? {α : Type} (read : Value → Option α) : Option Value → Option (Option α)
  | none => some none
  | some value => (read value).map some

def defaulted? {α : Type} (read : Value → Option α) (default : α) : Option Value → Option α
  | none => some default
  | some value => read value

/-- The name of a case without content: a text, or a table whose only member is empty. -/
def caseName? : Value → Option String
  | .string name => some name
  | .table _ [(name, .table _ [])] => some name
  | .table _ [(name, .array [])] => some name
  | _ => none

end Rollup.Toml
