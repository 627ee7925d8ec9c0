import Rollup.Proofs.Text.Quoted
import Rollup.Sql.Database

/-! Names in statements.

Every database has a mark to quote names with. In a text with a name at its front it is known which
name that is and where it ends, so names are told apart by how they are written, and none is closed
by a mark of its own.
-/

set_option autoImplicit false

namespace Rollup.Sql

/-- The mark around a name. -/
def Database.nameMark : Database → Char
  | .mysql => '\x60'
  | .clickhouse | .duckdb | .h2 | .postgres => '"'

variable {database : Database} {a b s t : String}

theorem quoteName_eq (database : Database) :
    database.dialect.quoteName = Text.quote database.nameMark := by
  cases database <;> rfl

/-- Two names with texts behind them that do not begin with the mark are written alike only if the
names are equal and so are the texts. -/
theorem quoteName_append_eq_iff (left : s.toList.head? ≠ some database.nameMark)
    (right : t.toList.head? ≠ some database.nameMark) :
    database.dialect.quoteName a ++ s = database.dialect.quoteName b ++ t ↔ a = b ∧ s = t := by
  rw [quoteName_eq]
  constructor
  · exact Text.quote_append_inj (Text.stops_of_head? left) (Text.stops_of_head? right)
  · rintro ⟨rfl, rfl⟩
    rfl

theorem quoteName_append_eq_iff_marks :
    "s".toList.head? ≠ some Database.mysql.nameMark ∧
      "".toList.head? ≠ some Database.duckdb.nameMark ∧
      (Database.mysql.dialect.quoteName "\x60\x60" ++ "s" =
        Database.mysql.dialect.quoteName "\x60" ++ "s" ↔ "\x60\x60" = "\x60" ∧ "s" = "s") ∧
      (Database.duckdb.dialect.quoteName "\"\"" ++ "" =
        Database.duckdb.dialect.quoteName "" ++ "" ↔ "\"\"" = "" ∧ "" = "") := by
  have mysql : "s".toList.head? ≠ some Database.mysql.nameMark := by decide
  have duckdb : "".toList.head? ≠ some Database.duckdb.nameMark := by decide
  exact ⟨mysql, duckdb, quoteName_append_eq_iff mysql mysql, quoteName_append_eq_iff duckdb duckdb⟩

end Rollup.Sql
