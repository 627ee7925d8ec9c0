import Rollup.Sql.Database
import Rollup.Text.Alphanumeric

/-! Settings that hold for all queries, and the environment variables in them.

A variable is a dollar sign with a name, which ends before the first character that is neither
alphanumeric nor an underscore, or with any text in braces. A dollar sign without a name stands for
itself.
-/

set_option autoImplicit false

namespace Rollup

structure Settings where
  database : Sql.Database := .duckdb
  pretty : Bool := true
  /-- The directory of schema files, in which variables stand for their values. -/
  schemaDir : Option String := none
  deriving DecidableEq, Repr

inductive SettingsError where
  | fileNotFound (path : String)
  | unreadable (reason : String)
  | malformed
  | missingVariable (name : String)
  | unterminatedVariable (text : String)
  deriving DecidableEq, Repr

def SettingsError.message : SettingsError → String
  | .fileNotFound path => s!"Config file not found: {path}"
  | .unreadable reason => s!"Failed to read config file: {reason}"
  | .malformed => "Failed to parse config file"
  | .missingVariable name => s!"Missing environment variable: {name}"
  | .unterminatedVariable text => "Unterminated `$\x7b` in: " ++ text

namespace Settings

/-! ## Environment variables -/

inductive Piece where
  | plain (c : Char)
  | variable (name : String)
  | unterminated
  deriving DecidableEq, Repr

/-- What has been read of the piece that a character belongs to; names are kept in reverse. -/
inductive Reading where
  | between
  | dollar
  | name (read : List Char)
  | braced (read : List Char)

def isNameChar (c : Char) : Bool := Text.isAlphanumeric c || c == '_'

def Piece.named (read : List Char) : Piece := .variable (String.ofList read.reverse)

def pieces : Reading → List Char → List Piece
  | .between, [] => []
  | .between, c :: rest =>
    if c == '$' then pieces .dollar rest else .plain c :: pieces .between rest
  | .dollar, [] => [.plain '$']
  | .dollar, c :: rest =>
    if c == '\x7b' then pieces (.braced []) rest
    else if isNameChar c then pieces (.name [c]) rest
    else if c == '$' then .plain '$' :: pieces .dollar rest
    else .plain '$' :: .plain c :: pieces .between rest
  | .name read, [] => [.named read]
  | .name read, c :: rest =>
    if isNameChar c then pieces (.name (c :: read)) rest
    else if c == '$' then .named read :: pieces .dollar rest
    else .named read :: .plain c :: pieces .between rest
  | .braced _, [] => [.unterminated]
  | .braced read, c :: rest =>
    if c == '\x7d' then .named read :: pieces .between rest else pieces (.braced (c :: read)) rest

variable {m : Type → Type} [Monad m]

def Piece.value (lookup : String → m (Option String)) (text : String) :
    Piece → ExceptT SettingsError m String
  | .plain c => return String.singleton c
  | .variable name => do
    match ← lookup name with
    | some value => return value
    | none => throw (.missingVariable name)
  | .unterminated => throw (.unterminatedVariable text)

/-- Replace the variables in a text by their values. Variables in values are left alone. -/
def expand (lookup : String → m (Option String)) (text : String) :
    ExceptT SettingsError m String := do
  let values ← (pieces .between text.toList).mapM (Piece.value lookup text)
  return String.join values

end Settings

end Rollup
