import Rollup.Number.Binary64

/-! TOML values. -/

set_option autoImplicit false

namespace Rollup.Toml

/-- How a table came to be: as part of the path of a header or of a dotted key, by a header of its
own, or between braces. -/
inductive Origin where
  | implied
  | dotted
  | header
  | inline
  deriving DecidableEq, Repr

inductive Value where
  | string (text : String)
  | int (value : Int)
  | float (value : Binary64)
  | bool (value : Bool)
  | time (text : String)
  | array (items : List Value)
  | table (origin : Origin) (members : List (String × Value))
  /-- The tables of headers in double brackets. -/
  | tables (items : List (List (String × Value)))
  /-- A word that is written like a number but stands for none, or for one out of range. -/
  | unreadable (word : String)
  deriving Inhabited, Repr

abbrev Members := List (String × Value)

inductive Statement where
  | assign (path : List String) (key : String) (value : Value)
  | header (path : List String) (key : String)
  | item (path : List String) (key : String)
  deriving Repr

namespace Value

def text? : Value → Option String
  | .string text => some text
  | _ => none

def flag? : Value → Option Bool
  | .bool value => some value
  | _ => none

def members? : Value → Option Members
  | .table _ members => some members
  | _ => none

def items? : Value → Option (List Value)
  | .array items => some items
  | .tables items => some (items.map (.table .header))
  | _ => none

mutual

def isReadable : Value → Bool
  | .array items => itemsReadable items
  | .table _ members => membersReadable members
  | .tables items => tablesReadable items
  | .unreadable _ => false
  | _ => true

def itemsReadable : List Value → Bool
  | [] => true
  | item :: rest => isReadable item && itemsReadable rest

def membersReadable : List (String × Value) → Bool
  | [] => true
  | (_, value) :: rest => isReadable value && membersReadable rest

def tablesReadable : List (List (String × Value)) → Bool
  | [] => true
  | members :: rest => membersReadable members && tablesReadable rest

end

end Value

end Rollup.Toml
