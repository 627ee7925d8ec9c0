/-! Names for fields that have none.

The names are `_var0`, `_var1` and so on, less those that are taken. No name is given twice.
-/

set_option autoImplicit false

namespace Rollup

structure FreshNames where
  taken : List String
  next : Nat
  deriving Repr

namespace FreshNames

def ofTaken (taken : List String) : FreshNames := ⟨taken, 0⟩

def reserve (names : FreshNames) (name : String) : FreshNames :=
  { names with taken := name :: names.taken }

def numbered (n : Nat) : String := s!"_var{n}"

-- As many steps as there are taken names suffice.
def search (taken : List String) : Nat → Nat → Nat
  | 0, n => n
  | steps + 1, n => if taken.contains (numbered n) then search taken steps (n + 1) else n

def fresh (names : FreshNames) : String × FreshNames :=
  let n := search names.taken names.taken.length names.next
  (numbered n, ⟨numbered n :: names.taken, n + 1⟩)

end FreshNames

end Rollup
