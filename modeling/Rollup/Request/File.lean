import Rollup.Host
import Rollup.Request.Compile
import Rollup.Request.Document
import Rollup.Schema.Document

/-! Compiling requests, given as texts or in files, against schemas in files. -/

set_option autoImplicit false

namespace Rollup

def compileRequest (schema : Schema) (text : String) (dialect : Sql.Dialect) (pretty : Bool) :
    Except Failure CompiledQuery := do
  let request ← (Request.parse text).mapError .request
  let query ← request.toQuery.mapError .request
  compileQuery schema query dialect pretty

variable {m : Type → Type} [Monad m]

def Schema.ofFile (host : Host m) (path : String) : ExceptT SchemaError m Schema := do
  if !(← host.contains path) then throw (.fileNotFound path)
  match ← host.read path with
  | .ok text => ExceptT.mk (pure (Schema.parse text))
  | .error reason => throw (.unreadable reason)

def checkSchema (host : Host m) (path : String) : ExceptT Failure m Schema := do
  let schema ← (Schema.ofFile host path).adapt .schema
  ExceptT.mk (pure ((schema.validate .builtin).mapError .schema))
  return schema

def compileFiles (host : Host m) (schemaPath requestPath : String) (dialect : Sql.Dialect)
    (pretty : Bool) : ExceptT Failure m CompiledQuery := do
  let schema ← (Schema.ofFile host schemaPath).adapt .schema
  match ← host.read requestPath with
  | .ok text => ExceptT.mk (pure (compileRequest schema text dialect pretty))
  | .error reason => throw (.unreadable requestPath reason)

end Rollup
