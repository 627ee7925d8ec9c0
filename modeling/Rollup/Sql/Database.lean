import Rollup.Sql.Dialect

/-! The databases whose dialects are known, by name. -/

set_option autoImplicit false

namespace Rollup.Sql

inductive Database where
  | clickhouse
  | duckdb
  | h2
  | mysql
  | postgres
  deriving DecidableEq, Repr

namespace Database

def all : List Database := [.clickhouse, .duckdb, .h2, .mysql, .postgres]

def dialect : Database → Dialect
  | .clickhouse => .clickhouse
  | .duckdb => .duckdb
  | .h2 => .h2
  | .mysql => .mysql
  | .postgres => .postgres

def name (database : Database) : String := database.dialect.name

/-- The database with a name in small letters; one of them has two names. -/
def ofWord? (word : String) : Option Database :=
  if word == "postgresql" then some .postgres else all.find? fun database => database.name == word

def ofName? (name : String) : Option Database := ofWord? (Text.wordLower name)

end Database

end Rollup.Sql
