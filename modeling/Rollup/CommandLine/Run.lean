import Rollup.CommandLine.Command
import Rollup.Json.Printer
import Rollup.Request.File
import Rollup.Settings.File
import Rollup.Value.Duration
import Rollup.Value.Percentage
import Rollup.Value.Size

/-! What the command line does. -/

set_option autoImplicit false

namespace Rollup.CommandLine

/-- The status of a program that has ended, and what it has written. -/
structure Outcome where
  status : Nat
  output : String
  complaint : String
  deriving DecidableEq, Repr

def Outcome.done (output : String) : Outcome := ⟨0, output, ""⟩

def Outcome.failed (complaint : String) : Outcome := ⟨1, "", complaint ++ "\n"⟩

def Outcome.misused : Outcome := ⟨2, "", "For more information, try '--help'.\n"⟩

def describeValue (kind : ValueKind) (text : String) : Except ValueError String :=
  match kind with
  | .duration => do
    let duration ← Duration.parse text
    let written := duration.render
    let seconds := duration.seconds
    return s!"{written} = {seconds} seconds"
  | .size => do
    let size ← Size.parse text
    let written := size.render
    let bytes := size.value
    return s!"{written} = {bytes} bytes"
  | .percentage => do
    let percentage ← Percentage.parse text
    let written := percentage.render
    let fraction := Number.Layout.plain.write percentage.fraction
    return s!"{written} = {fraction}"

def runParseValue (kind : ValueKind) (text : String) : Outcome :=
  match describeValue kind text with
  | .ok line => .done (line ++ "\n")
  | .error e =>
    let reason := e.message
    .failed s!"Invalid value '{text}': {reason}"

def describeSchema (schema : Schema) : String :=
  let name := schema.name
  let table := schema.table
  lines [
    s!"Schema '{name}' (table {table}) is valid",
    "  Dimensions: " ++ toString schema.dimensions.length,
    "  Metrics:    " ++ toString schema.metrics.length,
    "  Derived:    " ++ toString schema.derived.length]

def encodeCompiled (database : Sql.Database) (compiled : CompiledQuery) : Json :=
  .object [
    ("dialect", .string database.name),
    ("sql", .string compiled.sql),
    ("columns", .array (compiled.columns.map fun column =>
      .object [("name", .string column.name), ("data_type", .string column.dataType.name)]))]

variable {m : Type → Type} [Monad m]

def runCheckSchema (host : Host m) (path : String) : m Outcome := do
  match ← (checkSchema host path).run with
  | .ok schema => return .done (describeSchema schema)
  | .error e =>
    let reason := e.message
    return .failed s!"Invalid schema '{path}': {reason}"

/-- The path of a schema, which is given as such or as a name in the directory of schema files. -/
def resolveSchema (host : Host m) (settings : Settings) (schema : String) :
    ExceptT SettingsError m String := do
  if ← host.contains schema then return schema
  match ← settings.schemaPath host schema with
  | none => return schema
  | some path => return if ← host.contains path then path else schema

def runCompile (host : Host m) (settings : Settings) (options : CompileOptions) : m Outcome := do
  match ← (resolveSchema host settings options.schema).run with
  | .error e =>
    let schema := options.schema
    let reason := e.message
    return .failed s!"Error resolving schema '{schema}': {reason}"
  | .ok schemaPath =>
    let database := options.database.getD settings.database
    let pretty := settings.pretty && !options.compact
    match ← (compileFiles host schemaPath options.request database.dialect pretty).run with
    | .error e => return .failed ("Compilation error: " ++ e.message)
    | .ok compiled =>
      return .done (match options.format with
        | .sql => compiled.sql ++ "\n"
        | .json => (encodeCompiled database compiled).pretty ++ "\n")

def runCommand (host : Host m) (settings : Settings) : Command → m Outcome
  | .compile options => runCompile host settings options
  | .checkSchema path => runCheckSchema host path
  | .parseValue kind text => return runParseValue kind text

def loadSettings (host : Host m) : Option String → ExceptT SettingsError m Settings
  | some path => Settings.ofFile host path
  | none => Settings.find host

def run (host : Host m) (texts : List String) : m Outcome :=
  match parse texts with
  | .misuse => return .misused
  | .print text => return .done text
  | .run config command => do
    match ← (loadSettings host config).run with
    | .error e => return .failed ("Error loading settings: " ++ e.message)
    | .ok settings => runCommand host settings command

end Rollup.CommandLine
