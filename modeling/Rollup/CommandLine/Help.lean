/-! The texts that describe the command line. -/

set_option autoImplicit false

namespace Rollup.CommandLine

inductive Topic where
  | overview
  | compile
  | checkSchema
  | parseValue
  | help
  deriving DecidableEq, Repr

def versionText : String := "tally 0.1.0\n"

def lines (texts : List String) : String := String.join (texts.map (· ++ "\n"))

def commonOptions : List String :=
  ["Options:",
    "      --config <CONFIG>  Path to a tally.toml settings file",
    "  -h, --help             Print help"]

def overviewHelp : List String :=
  ["Tally - compiles metric queries to multi-dialect SQL",
    "",
    "Usage: tally [OPTIONS] <COMMAND>",
    "",
    "Commands:",
    "  compile       Compile a JSON query request to SQL",
    "  check-schema  Load a schema file and check its derived columns",
    "  parse-value   Parse a human-readable literal and print its normalized value",
    "  help          Print this message or the help of the given subcommand(s)",
    ""] ++ commonOptions ++
  ["  -V, --version          Print version"]

def compileUsage : List String :=
  ["Compile a JSON query request to SQL",
    "",
    "Usage: tally compile [OPTIONS] --schema <SCHEMA> --query <QUERY>",
    "",
    "Options:"]

def compileSummary : List String :=
  compileUsage ++
  ["      --config <CONFIG>    Path to a tally.toml settings file",
    "  -s, --schema <SCHEMA>    Schema file, or the name of a schema in the configured schema " ++
      "directory",
    "  -q, --query <QUERY>      Path to the JSON query request",
    "  -d, --dialect <DIALECT>  SQL dialect to generate (defaults to the configured dialect) " ++
      "[possible values: clickhouse, duckdb, h2, mysql, postgres]",
    "  -o, --output <OUTPUT>    Output format [default: sql] [possible values: sql, json]",
    "      --compact            Emit the SQL on a single line",
    "  -h, --help               Print help (see more with '--help')"]

def compileDetails : List String :=
  compileUsage ++
  ["      --config <CONFIG>",
    "          Path to a tally.toml settings file",
    "",
    "  -s, --schema <SCHEMA>",
    "          Schema file, or the name of a schema in the configured schema directory",
    "",
    "  -q, --query <QUERY>",
    "          Path to the JSON query request",
    "",
    "  -d, --dialect <DIALECT>",
    "          SQL dialect to generate (defaults to the configured dialect)",
    "          ",
    "          [possible values: clickhouse, duckdb, h2, mysql, postgres]",
    "",
    "  -o, --output <OUTPUT>",
    "          Output format",
    "",
    "          Possible values:",
    "          - sql:  Output SQL only",
    "          - json: Output SQL and result columns as JSON",
    "          ",
    "          [default: sql]",
    "",
    "      --compact",
    "          Emit the SQL on a single line",
    "",
    "  -h, --help",
    "          Print help (see a summary with '-h')"]

def checkSchemaHelp : List String :=
  ["Load a schema file and check its derived columns",
    "",
    "Usage: tally check-schema [OPTIONS] <FILE>",
    "",
    "Arguments:",
    "  <FILE>  Path to the schema file",
    ""] ++ commonOptions

def parseValueHelp : List String :=
  ["Parse a human-readable literal and print its normalized value",
    "",
    "Usage: tally parse-value [OPTIONS] <KIND> <TEXT>",
    "",
    "Arguments:",
    "  <KIND>  [possible values: duration, size, percentage]",
    "  <TEXT>  ",
    ""] ++ commonOptions

def helpHelp : List String :=
  ["Print this message or the help of the given subcommand(s)",
    "",
    "Usage: tally help [COMMAND]...",
    "",
    "Arguments:",
    "  [COMMAND]...  Print help for the subcommand(s)"]

def Topic.describe (topic : Topic) (detailed : Bool) : String :=
  lines (match topic with
    | .overview => overviewHelp
    | .compile => if detailed then compileDetails else compileSummary
    | .checkSchema => checkSchemaHelp
    | .parseValue => parseValueHelp
    | .help => helpHelp)

end Rollup.CommandLine
