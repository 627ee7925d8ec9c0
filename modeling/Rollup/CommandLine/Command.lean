import Rollup.CommandLine.Argument
import Rollup.CommandLine.Help
import Rollup.Sql.Database

/-! The commands of the command line. -/

set_option autoImplicit false

namespace Rollup.CommandLine

inductive OutputFormat where
  | sql
  | json
  deriving DecidableEq, Repr

inductive ValueKind where
  | duration
  | size
  | percentage
  deriving DecidableEq, Repr

structure CompileOptions where
  schema : String
  request : String
  database : Option Sql.Database
  format : OutputFormat
  compact : Bool
  deriving DecidableEq, Repr

inductive Command where
  | compile (options : CompileOptions)
  | checkSchema (path : String)
  | parseValue (kind : ValueKind) (text : String)
  deriving DecidableEq, Repr

inductive Invocation where
  | run (config : Option String) (command : Command)
  | print (text : String)
  | misuse
  deriving DecidableEq, Repr

def OutputFormat.named : List (String × OutputFormat) := [("sql", .sql), ("json", .json)]

def ValueKind.named : List (String × ValueKind) :=
  [("duration", .duration), ("size", .size), ("percentage", .percentage)]

def isGiven (text : String) : Bool := !text.isEmpty

def anyText (_ : String) : Bool := true

def configFlag : Flag := ⟨"config", none, .value isGiven⟩

def helpFlag : Flag := ⟨"help", some 'h', .help⟩

def versionFlag : Flag := ⟨"version", some 'V', .version⟩

def overviewGrammar : Grammar where
  flags := [configFlag, helpFlag, versionFlag]
  commands := ["compile", "check-schema", "parse-value", "help"]

def compileGrammar : Grammar where
  flags := [
    configFlag,
    helpFlag,
    ⟨"schema", some 's', .value anyText⟩,
    ⟨"query", some 'q', .value isGiven⟩,
    ⟨"dialect", some 'd', .value fun word => (Sql.Database.ofWord? word).isSome⟩,
    ⟨"output", some 'o', .value fun word => (OutputFormat.named.lookup word).isSome⟩,
    ⟨"compact", none, .switch⟩]

def checkSchemaGrammar : Grammar where
  flags := [configFlag, helpFlag]
  places := [isGiven]

def parseValueGrammar : Grammar where
  flags := [configFlag, helpFlag]
  places := [fun word => (ValueKind.named.lookup word).isSome, anyText]

def compileCommand? (arguments : List Argument) : Option Command := do
  let format := (valueOf? "output" arguments).getD "sql"
  return .compile {
    schema := ← valueOf? "schema" arguments
    request := ← valueOf? "query" arguments
    database := (valueOf? "dialect" arguments).bind Sql.Database.ofWord?
    format := ← OutputFormat.named.lookup format
    compact := arguments.contains (.switch "compact") }

def checkSchemaCommand? (arguments : List Argument) : Option Command :=
  match arguments.filterMap (·.positional?) with
  | [path] => some (.checkSchema path)
  | _ => none

def parseValueCommand? (arguments : List Argument) : Option Command :=
  match arguments.filterMap (·.positional?) with
  | [word, text] => (ValueKind.named.lookup word).map fun kind => .parseValue kind text
  | _ => none

structure CommandRule where
  topic : Topic
  grammar : Grammar
  command? : List Argument → Option Command

def commandRules : List (String × CommandRule) :=
  [("compile", ⟨.compile, compileGrammar, compileCommand?⟩),
    ("check-schema", ⟨.checkSchema, checkSchemaGrammar, checkSchemaCommand?⟩),
    ("parse-value", ⟨.parseValue, parseValueGrammar, parseValueCommand?⟩)]

def CommandRule.parse (rule : CommandRule) (config : Option String) (texts : List String) :
    Invocation :=
  let reading := rule.grammar.read texts
  if !rule.grammar.admits reading.arguments then .misuse
  else match reading.ending with
    | .complete =>
      match rule.command? reading.arguments with
      | some command =>
        -- A settings file given with the arguments takes the place of one given before them.
        .run ((valueOf? "config" reading.arguments).or config) command
      | none => .misuse
    | .help detailed => .print (rule.topic.describe detailed)
    | _ => .misuse

def describe : List String → Invocation
  | [] => .print (Topic.overview.describe true)
  | ["help"] => .print (Topic.help.describe true)
  | [name] =>
    match commandRules.lookup name with
    | some rule => .print (rule.topic.describe true)
    | none => .misuse
  | _ => .misuse

def parse (texts : List String) : Invocation :=
  let reading := overviewGrammar.read texts
  if !overviewGrammar.admits reading.arguments then .misuse
  else match reading.ending with
    | .command "help" rest => describe rest
    | .command name rest =>
      match commandRules.lookup name with
      | some rule => rule.parse (valueOf? "config" reading.arguments) rest
      | none => .misuse
    | .help detailed => .print (Topic.overview.describe detailed)
    | .version => .print versionText
    | .complete | .misuse => .misuse

end Rollup.CommandLine
