import Rollup.Compiler
import Rollup.Request.Basic
import Rollup.Schema.Validation
import Rollup.Settings.Basic

/-! Compiling queries against schemas, and what can go wrong between a request and its statement. -/

set_option autoImplicit false

namespace Rollup

inductive Failure where
  | schema (source : SchemaError)
  | request (source : RequestError)
  | compile (source : CompileError)
  | settings (source : SettingsError)
  | unreadable (path reason : String)
  deriving DecidableEq, Repr

namespace Failure

def kind? : Failure → Option ErrorKind
  | .request source => some source.kind
  | .compile source => some source.kind
  | _ => none

def message : Failure → String
  | .schema source =>
    let reason := source.message
    s!"Schema error: {reason}"
  | .request source =>
    let reason := source.message
    s!"Request error: {reason}"
  | .compile source => source.message
  | .settings source =>
    let reason := source.message
    s!"Settings error: {reason}"
  | .unreadable path reason => s!"Failed to read {path}: {reason}"

end Failure

/-- Compile a query against a schema that is checked first, with the functions that are built in. -/
def compileQuery (schema : Schema) (query : Query) (dialect : Sql.Dialect) (pretty : Bool) :
    Except Failure CompiledQuery := do
  (schema.validate .builtin).mapError .schema
  (Compiler.compile { schema, dialect } query pretty).mapError .compile

end Rollup
