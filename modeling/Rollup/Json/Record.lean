import Rollup.Json.Basic
import Rollup.Number.Word

/-! Reading records and plain values out of JSON.

A record is written as an object, or as an array of its fields in order. In an object a field
occurs at most once, and names that are no fields are skipped. In an array nothing is skipped.
-/

set_option autoImplicit false

namespace Rollup.Json

structure FieldRule where
  name : String
  required : Bool

/-- The value of a field in an object; the outer option is none if the field occurs twice, or is
missing although it must be there. -/
def member? (members : List (String × Json)) (rule : FieldRule) : Option (Option Json) :=
  match members.filter (fun entry => entry.1 == rule.name) with
  | [] => if rule.required then none else some none
  | [(_, value)] => some (some value)
  | _ => none

/-- The items of an array as the values of fields; fields that may be missing may be missing at
the end. -/
def positional? : List FieldRule → List Json → Option (List (Option Json))
  | [], [] => some []
  | [], _ :: _ => none
  | rule :: rules, [] =>
    if rule.required then none else (positional? rules []).map (none :: ·)
  | _ :: rules, item :: items => (positional? rules items).map (some item :: ·)

def record? (rules : List FieldRule) : Json → Option (List (Option Json))
  | .object members => rules.mapM (member? members)
  | .array items => positional? rules items
  | _ => none

def text? : Json → Option String
  | .string text => some text
  | _ => none

def flag? : Json → Option Bool
  | .bool value => some value
  | _ => none

def count? : Json → Option Nat
  | .number text => (Number.readNat? text.toList).filter (· ≤ Number.maxUnsignedWord)
  | _ => none

def list? {α : Type} (read : Json → Option α) : Json → Option (List α)
  | .array items => items.mapM read
  | _ => none

def nullable? {α : Type} (read : Json → Option α) : Json → Option (Option α)
  | .null => some none
  | value => (read value).map some

/-- The name of a case without content: a text, or an object whose only member is null. -/
def caseName? : Json → Option String
  | .string name => some name
  | .object [(name, .null)] => some name
  | _ => none

end Rollup.Json
