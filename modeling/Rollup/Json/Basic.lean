/-! JSON values.

Numbers keep their text, so that nothing is lost between reading and deciding what kind of number
a field takes. The members of an object keep their order, and a name may occur twice.
-/

set_option autoImplicit false

namespace Rollup

inductive Json where
  | null
  | bool (value : Bool)
  | number (text : String)
  | string (text : String)
  | array (items : List Json)
  | object (members : List (String × Json))
  /-- A string with half of a surrogate pair in it, or an object with such a name, as it is written.
  No text holds half a pair, so the value can be skipped but not read. -/
  | unreadable (source : String)
  deriving Inhabited, Repr

namespace Json

def ofInt (n : Int) : Json := .number (toString n)

def ofNat (n : Nat) : Json := .number (toString n)

end Json

end Rollup
