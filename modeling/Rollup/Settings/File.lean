import Rollup.Host
import Rollup.Settings.Basic
import Rollup.Toml.Document
import Rollup.Toml.Record

/-! Settings written as TOML documents, and where they and schema files are found.

All fields of settings may be missing, and other keys are skipped.
-/

set_option autoImplicit false

namespace Rollup.Settings

open Toml

def database? (value : Value) : Option Sql.Database :=
  (caseName? value).bind Sql.Database.ofWord?

def withCompiler (settings : Settings) (value : Value) : Option Settings := do
  match ← fields? true ["dialect", "pretty"] value with
  | [dialect, pretty] =>
    return { settings with
      database := ← defaulted? database? settings.database dialect
      pretty := ← defaulted? Value.flag? settings.pretty pretty }
  | _ => none

def withSchemas (settings : Settings) (value : Value) : Option Settings := do
  match ← fields? true ["dir"] value with
  | [dir] => return { settings with schemaDir := ← optional? Value.text? dir }
  | _ => none

def ofDocument? (document : Value) : Option Settings := do
  match ← fields? true ["compiler", "schemas"] document with
  | [compiler, schemas] =>
    let settings : Settings := {}
    let settings ← defaulted? settings.withCompiler settings compiler
    defaulted? settings.withSchemas settings schemas
  | _ => none

def parse (text : String) : Except SettingsError Settings :=
  match (Toml.parse? text).bind fun members => ofDocument? (.table .header members) with
  | some settings => .ok settings
  | none => .error .malformed

/-! ## Files -/

variable {m : Type → Type} [Monad m]

def ofFile (host : Host m) (path : String) : ExceptT SettingsError m Settings := do
  if !(← host.contains path) then throw (.fileNotFound path)
  match ← host.read path with
  | .ok text => ExceptT.mk (pure (parse text))
  | .error reason => throw (.unreadable reason)

def firstFile? (host : Host m) : List String → m (Option String)
  | [] => return none
  | path :: rest => do
    if ← host.contains path then return some path
    firstFile? host rest

/-- The settings in the file that a variable names, or else in the file in the current directory,
or else in the file of the user, or else those that hold without a file. -/
def find (host : Host m) : ExceptT SettingsError m Settings := do
  match ← host.env? "TALLY_CONFIG" with
  | some path => ofFile host path
  | none =>
    let userFile := (← host.configDir).map fun dir =>
      joinPath (joinPath dir "tally") "config.toml"
    match ← (firstFile? host ("tally.toml" :: userFile.toList) : m _) with
    | some path => ofFile host path
    | none => return {}

def schemaDirectory (host : Host m) (settings : Settings) :
    ExceptT SettingsError m (Option String) :=
  settings.schemaDir.mapM (expand host.env?)

def schemaPath (host : Host m) (settings : Settings) (name : String) :
    ExceptT SettingsError m (Option String) := do
  return (← settings.schemaDirectory host).map fun dir => joinPath dir (name ++ ".toml")

end Rollup.Settings
