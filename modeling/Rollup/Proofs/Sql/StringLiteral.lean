import Rollup.Proofs.Compiler
import Rollup.Proofs.Text.Quoted

/-! How databases read string literals.

In every database two quotes inside a literal stand for one. In ClickHouse and MySQL a backslash
escapes the character behind it as well, and no dialect doubles a backslash: there a literal reads
back as the text it was written from exactly when the text has no backslash.
-/

set_option autoImplicit false

namespace Rollup

namespace Sql

/-- Whether a backslash inside a string literal escapes the character behind it. -/
def Database.escapes : Database → Bool
  | .clickhouse | .mysql => true
  | .duckdb | .h2 | .postgres => false

/-- What was read of a literal and the text behind it, with one more character in front. -/
def readFirst (c : Char) (read : Option (List Char × List Char)) :
    Option (List Char × List Char) :=
  read.map fun (content, after) => (c :: content, after)

/-- What the literal stands for whose opening quote has been read, and the text behind its closing
quote. A character that is escaped stands for what `meaning` says. -/
def readString (escapes : Bool) (meaning : Char → Char) :
    List Char → Option (List Char × List Char)
  | [] => none
  | [c] => if c = '\'' then some ([], []) else none
  | c :: d :: rest =>
    if c = '\'' then
      if d = '\'' then readFirst '\'' (readString escapes meaning rest) else some ([], d :: rest)
    else if c = '\\' ∧ escapes then readFirst (meaning d) (readString escapes meaning rest)
    else readFirst c (readString escapes meaning (d :: rest))

/-- What the literal at the beginning of a text stands for, and the text behind it. -/
def readLiteral (escapes : Bool) (meaning : Char → Char) :
    List Char → Option (List Char × List Char)
  | [] => none
  | c :: body => if c = '\'' then readString escapes meaning body else none

theorem readFirst_eq_some {c : Char} {read : Option (List Char × List Char)}
    {content after : List Char} :
    readFirst c read = some (content, after) ↔
      ∃ rest, read = some (rest, after) ∧ content = c :: rest := by
  cases read <;> simp [readFirst]; grind

section
variable {escapes : Bool} {meaning : Char → Char}

theorem readString_close {after : List Char} (apart : after.head? ≠ some '\'') :
    readString escapes meaning ('\'' :: after) = some ([], after) := by
  cases after with
  | nil => simp [readString]
  | cons d rest =>
    have other : d ≠ '\'' := by simpa using apart
    simp [readString, other]

theorem readString_quotes (text : List Char) :
    readString escapes meaning ('\'' :: '\'' :: text) =
      readFirst '\'' (readString escapes meaning text) := by
  simp [readString]

theorem readString_escape (d : Char) (text : List Char) :
    readString true meaning ('\\' :: d :: text) =
      readFirst (meaning d) (readString true meaning text) := by
  simp [readString]

theorem readString_plain {c : Char} (other : c ≠ '\'') (plain : escapes = true → c ≠ '\\')
    {text : List Char} (more : text ≠ []) :
    readString escapes meaning (c :: text) = readFirst c (readString escapes meaning text) := by
  cases text with
  | nil => exact absurd rfl more
  | cons d rest =>
    have kept : ¬(c = '\\' ∧ escapes = true) := fun both => plain both.2 both.1
    simp [readString, other, kept]

theorem length_readString {text content after : List Char}
    (read : readString escapes meaning text = some (content, after)) :
    (Text.double '\'' content).length + 1 + after.length ≤ text.length := by
  induction text using readString.induct escapes generalizing content with
  | case1 => simp [readString] at read
  | case2 => simp_all [readString, Text.double]
  | case3 c other => simp [readString, other] at read
  | case4 rest ih =>
    rw [readString_quotes, readFirst_eq_some] at read
    obtain ⟨content, read, rfl⟩ := read
    have shorter := ih read
    simp only [Text.double, if_true, List.length_cons]
    omega
  | case5 d rest other => simp_all [readString, Text.double]; grind
  | case6 c d rest other escaped ih =>
    obtain ⟨rfl, rfl⟩ := escaped
    rw [readString_escape, readFirst_eq_some] at read
    obtain ⟨content, read, rfl⟩ := read
    have shorter := ih read
    simp only [Text.double]
    split <;> simp only [List.length_cons] <;> omega
  | case7 c d rest other plain ih =>
    rw [readString_plain other (by grind) (by simp), readFirst_eq_some] at read
    obtain ⟨content, read, rfl⟩ := read
    have shorter := ih read
    simp only [Text.double, other, if_false, List.length_cons] at shorter ⊢
    omega

/-- A text in quotes reads back as itself when no character of it escapes another. -/
theorem readString_double {s after : List Char} (apart : after.head? ≠ some '\'')
    (plain : escapes = true → '\\' ∉ s) :
    readString escapes meaning (Text.double '\'' s ++ '\'' :: after) = some (s, after) := by
  induction s with
  | nil => exact readString_close apart
  | cons c s ih =>
    have ih := ih fun on member => plain on (List.mem_cons_of_mem _ member)
    rw [Text.double]
    split
    case isTrue quote =>
      rw [List.cons_append, List.cons_append, readString_quotes, ih, quote]
      rfl
    case isFalse other =>
      have first : escapes = true → c ≠ '\\' := by
        rintro on rfl
        exact plain on List.mem_cons_self
      rw [List.cons_append, readString_plain other first (by simp), ih]
      rfl

/-- Where a backslash escapes, a text with one never reads back as itself: the escape and the
character behind it are read as one character, so too little is left to be read. -/
theorem readString_double_ne {s after : List Char} (escape : '\\' ∈ s) :
    readString true meaning (Text.double '\'' s ++ '\'' :: after) ≠ some (s, after) := by
  induction s with
  | nil => simp at escape
  | cons c s ih =>
    intro read
    rw [Text.double] at read
    by_cases quote : c = '\''
    · rw [if_pos quote, quote, List.cons_append, List.cons_append, readString_quotes,
        readFirst_eq_some] at read
      obtain ⟨content, read, same⟩ := read
      exact ih (by grind) ((List.cons.inj same).2 ▸ read)
    · rw [if_neg quote, List.cons_append] at read
      by_cases escapes : c = '\\'
      · obtain ⟨d, text, next⟩ : ∃ d text, Text.double '\'' s ++ '\'' :: after = d :: text :=
          List.exists_cons_of_ne_nil (by simp)
        rw [escapes, next, readString_escape, readFirst_eq_some] at read
        obtain ⟨content, read, same⟩ := read
        have fits := length_readString read
        have room := congrArg List.length next
        rw [← (List.cons.inj same).2] at fits
        simp only [List.length_append, List.length_cons] at room
        omega
      · rw [readString_plain quote (fun _ => escapes) (by simp), readFirst_eq_some] at read
        obtain ⟨content, read, same⟩ := read
        exact ih (by grind) ((List.cons.inj same).2 ▸ read)

end

theorem toList_quoteString (database : Database) (s t : String) :
    (database.dialect.quoteString s ++ t).toList =
      '\'' :: (Text.double '\'' s.toList ++ '\'' :: t.toList) := by
  cases database <;> exact Text.toList_quote_append s t

/-- A text in quotes, with any text behind it that does not begin with a quote, is read as one
literal that ends where its quotes end and stands for the text, exactly when the database takes no
character of the text for an escape. -/
theorem readLiteral_quoteString_iff (database : Database) (meaning : Char → Char) (s t : String)
    (apart : t.toList.head? ≠ some '\'') :
    readLiteral database.escapes meaning (database.dialect.quoteString s ++ t).toList =
        some (s.toList, t.toList) ↔
      (database.escapes = true → '\\' ∉ s.toList) := by
  rw [toList_quoteString, readLiteral, if_pos rfl]
  constructor
  · intro read on escape
    rw [on] at read
    exact readString_double_ne escape read
  · exact readString_double apart

theorem readLiteral_quoteString_quotation :
    readLiteral true id (Database.mysql.dialect.quoteString "it's" ++ " AND 1 = 1").toList =
        some ("it's".toList, " AND 1 = 1".toList) ↔
      (true = true → '\\' ∉ "it's".toList) :=
  readLiteral_quoteString_iff .mysql id "it's" " AND 1 = 1" (by decide)

end Sql

/-! ## A text that ends in a backslash -/

def Expr.escapingHost : Expr :=
  .binary .and (.binary .eq (.column "host") (.literal (.string "a\\")))
    (.binary .eq (.column "region") (.literal (.string " OR 1 = 1 -- ")))

def Query.escapingHost : Query where
  selectors := [⟨.call "sum" [.column "cpu"], some "load"⟩]
  filter := some .escapingHost

/-- The closing quote of the first text is escaped, so its literal ends at the opening quote of the
second one, whose text is left to be read as part of the condition. -/
theorem Compiler.readLiteral_escapingHost :
    (Expr.parse "host = 'a\\' AND region = ' OR 1 = 1 -- '").toOption.any (· == .escapingHost) =
        true ∧
      (clickhouseHosts.compile .escapingHost false).toOption.map (·.sql) =
        some ("SELECT sum(\"cpu\") AS \"load\" FROM \"metrics\" WHERE \"host\" = " ++
          (Sql.Database.clickhouse.dialect.quoteString "a\\" ++
            " AND \"region\" = ' OR 1 = 1 -- '")) ∧
      Sql.readLiteral Sql.Database.clickhouse.escapes id
          (Sql.Database.clickhouse.dialect.quoteString "a\\" ++
            " AND \"region\" = ' OR 1 = 1 -- '").toList =
        some ("a' AND \"region\" = ".toList, " OR 1 = 1 -- '".toList) := by
  refine ⟨by decide +kernel, by decide +kernel, by decide +kernel⟩

end Rollup
