import Rollup.Proofs.Sql.Minus
import Rollup.Proofs.Staging.Statement
import Rollup.Proofs.Staging.Word

/-! Where the statement of an accepted query opens a comment.

The known functions have words for names, in any letter case, and so do the means of the known
dialects. So two signs in a row are all that can open a comment, and they do: an expression that
negates a negation is accepted, and behind it the line is lost.
-/

set_option autoImplicit false

namespace Rollup

/-! ## Names of functions -/

namespace Sql

theorem isInert_of_toLower {c : Char} (inert : isInert c.toLower = true) : isInert c = true := by
  -- Nothing that begins a comment or a quotation has a letter case.
  have fixed :
      ['-', '/', '*', '\'', '"', '\x60'].all (fun other => !isInert other.toLower) = true := rfl
  by_cases special : c ∈ ['-', '/', '*', '\'', '"', '\x60']
  · have quoted := List.all_eq_true.mp fixed c special
    rw [inert] at quoted
    cases quoted
  · simpa [isInert, isQuote, and_assoc] using special

theorem isWord_iff {text : String} :
    isWord text = true ↔ text.toList ≠ [] ∧ ∀ c ∈ text.toList, isInert c = true := by
  simp [isWord]

theorem isWord_of_asciiLower {text : String} (word : isWord (Text.asciiLower text) = true) :
    isWord text = true := by
  rw [isWord_iff, Text.asciiLower, String.toList_ofList] at word
  obtain ⟨nonempty, inert⟩ := word
  exact isWord_iff.mpr ⟨fun empty => nonempty (by rw [empty]; rfl),
    fun c member => isInert_of_toLower (inert c.toLower (List.mem_map_of_mem member))⟩

theorem isWord_of_isScalar {name : String} (scalar : Registry.builtin.IsScalar name) :
    isWord name = true := by
  obtain ⟨spec, found, -⟩ := Option.map_eq_some_iff.mp scalar
  have same : Text.asciiLower spec.name = Text.asciiLower name := by
    simpa [Text.sameWord] using List.find?_some found
  have each : ∀ spec ∈ Registry.builtin.specs, isWord (Text.asciiLower spec.name) = true := by
    decide
  exact isWord_of_asciiLower (same ▸ each spec (List.mem_of_find?_eq_some found))

theorem covers_words (database : Database) : Vocabulary.words.Covers database where
  functions := by
    show ∀ name ∈ database.functions, isWord name = true
    cases database <;> decide
  words := show ∀ word ∈ fixedWords, isWord word = true by decide

end Sql

/-! ## Statements -/

namespace Compiler
variable {c : Compiler} {query : Query}

theorem wordy_plan {database : Sql.Database} {plan : Plan} (dialect : c.dialect = database.dialect)
    (registry : c.registry = .builtin) (ok : c.plan query = .ok plan) :
    ∀ stage ∈ plan.stages, ∀ e ∈ stage.exprs, e.Wordy := by
  obtain ⟨seconds, a, carried, stages, orderBy, accepts⟩ := accepts_of_plan ok
  let b := c.builder query seconds a carried
  have calls : b.Calls (Sql.isWord · = true) := by
    have scalar := accepts.calls_builder fun func => registry ▸ isAggregate_builtin func
    exact scalar.imp fun name is => Sql.isWord_of_isScalar (registry ▸ is)
  exact accepts.keeps calls
    (StageBuilder.keeps_vocabulary dialect (Sql.covers_words database) calls)

/-- A statement opens a comment just where one of its stages puts a sign in front of another one or
of a negative number. -/
theorem opensComment_compile {database : Sql.Database} {pretty : Bool} {compiled : CompiledQuery}
    (dialect : c.dialect = database.dialect) (registry : c.registry = .builtin)
    (ok : c.compile query pretty = .ok compiled) :
    Sql.opensComment compiled.sql = true ↔
      ∃ stage ∈ compiled.plan.stages, ∃ e ∈ stage.exprs, e.doublesMinus = true := by
  obtain ⟨planned, -⟩ := plan_of_compile ok
  obtain ⟨statement, -, text, written⟩ := statement_of_compile ok
  have wordy : ∀ e ∈ statement.exprs, e.Wordy := by
    intro e member
    obtain ⟨stage, listed, read⟩ := (written e).mp member
    exact wordy_plan dialect registry planned stage listed e read
  obtain ⟨long, short⟩ :=
    Sql.opensComment_query (dialect ▸ Sql.tame_dialect database) statement wordy
  have opens : Sql.opensComment compiled.sql = statement.exprs.any (·.doublesMinus) := by
    rw [text]
    cases pretty
    · exact short
    · exact long
  rw [opens]
  exact Sql.Query.any_exprs_iff written (·.doublesMinus)

theorem opensComment_risingLoad : ∃ compiled,
    hosts.compile .risingLoad true = .ok compiled ∧
      (Sql.opensComment compiled.sql = true ↔
        ∃ stage ∈ compiled.plan.stages, ∃ e ∈ stage.exprs, e.doublesMinus = true) := by
  obtain ⟨compiled, ok⟩ := compile_risingLoad
  have dialect : hosts.dialect = Sql.Database.postgres.dialect := rfl
  have registry : hosts.registry = .builtin := rfl
  exact ⟨compiled, ok, opensComment_compile dialect registry ok⟩

end Compiler

/-! ## A negation of a negation -/

def Expr.twiceNegated : Expr := .call "sum" [.unary .neg (.unary .neg (.column "cpu"))]

def Query.twiceNegated : Query where
  selectors := [⟨.twiceNegated, some "load"⟩]

/-- The text of the selector is accepted, and so is the query; but its statement opens a comment in
either form. -/
theorem Compiler.opensComment_twiceNegated :
    (Expr.parse "sum(- -cpu)").toOption.any (· == .twiceNegated) = true ∧
      (hosts.compile .twiceNegated false).toOption.map (·.sql) =
        some "SELECT sum(--\"cpu\") AS \"load\" FROM \"metrics\"" ∧
      ∀ pretty : Bool, (hosts.compile .twiceNegated pretty).toOption.map
        (fun compiled => Sql.opensComment compiled.sql) = some true := by
  refine ⟨by decide +kernel, by decide +kernel, fun pretty => ?_⟩
  cases pretty <;> decide +kernel

end Rollup
