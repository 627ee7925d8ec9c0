import Rollup.Function.Aggregate

/-! The catalogue of functions that expressions may call.

Names are matched in any letter case. Adding a function of a known name replaces the known one.
-/

set_option autoImplicit false

namespace Rollup

inductive FunctionKind where
  /-- Computed row by row, and written by name wherever it is used. -/
  | scalar
  | aggregate (func : Aggregate)
  deriving DecidableEq, Repr

structure FunctionSpec where
  name : String
  kind : FunctionKind
  minArgs : Nat
  maxArgs : Nat
  deriving DecidableEq, Repr

namespace FunctionSpec

def scalar (name : String) (minArgs maxArgs : Nat) : FunctionSpec :=
  ⟨name, .scalar, minArgs, maxArgs⟩

def aggregate (func : Aggregate) : FunctionSpec :=
  ⟨func.name, .aggregate func, func.arity.1, func.arity.2⟩

def accepts (spec : FunctionSpec) (count : Nat) : Bool :=
  spec.minArgs ≤ count && count ≤ spec.maxArgs

def aggregate? (spec : FunctionSpec) : Option Aggregate :=
  match spec.kind with
  | .aggregate func => some func
  | .scalar => none

end FunctionSpec

structure Registry where
  specs : List FunctionSpec
  deriving DecidableEq, Repr

namespace Registry

def empty : Registry := ⟨[]⟩

def get? (registry : Registry) (name : String) : Option FunctionSpec :=
  registry.specs.find? fun spec => Text.sameWord spec.name name

def add (registry : Registry) (spec : FunctionSpec) : Registry :=
  ⟨registry.specs.filter (fun other => !Text.sameWord other.name spec.name) ++ [spec]⟩

def builtin : Registry :=
  ⟨Aggregate.all.map .aggregate ++
    [.scalar "abs" 1 1, .scalar "round" 1 2, .scalar "floor" 1 1, .scalar "ceil" 1 1,
      .scalar "length" 1 1, .scalar "lower" 1 1, .scalar "upper" 1 1]⟩

def aggregate? (registry : Registry) (name : String) : Option Aggregate :=
  (registry.get? name).bind (·.aggregate?)

def isAggregate (registry : Registry) (name : String) : Bool :=
  (registry.aggregate? name).isSome

def names (registry : Registry) : List String :=
  (registry.specs.map (·.name)).mergeSort fun a b => !(b < a)

end Registry

end Rollup
