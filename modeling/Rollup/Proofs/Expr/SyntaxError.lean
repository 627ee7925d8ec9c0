import Mathlib
import Rollup.Proofs.Expr.Passing
import Rollup.Proofs.Expr.Respelling

/-! Where the text of an expression is refused.

The reader comes exactly as far as a text of the grammar can begin like the one at hand. It does not
come farther, since what it came past can be filled up and written down; and it does come as far,
since it comes past whatever such a text begins with.
-/

set_option autoImplicit false

namespace Rollup.Expr

open Reader (Passes)

/-- Some text of the grammar begins with these tokens. -/
def CanBegin (tokens : List Token) : Prop :=
  ∃ (text : List Char) (located : List (Located Token)) (e : Expr),
    Token.all text = .ok located ∧ Derives (.chain .or) (located.map (·.value)) e ∧
      tokens <+: located.map (·.value)

variable {tokens taken : List Token}

theorem CanBegin.initial (begins : CanBegin tokens) (initial : taken <+: tokens) :
    CanBegin taken := by
  obtain ⟨text, located, e, lexed, derives, first⟩ := begins
  exact ⟨text, located, e, lexed, derives, initial.trans first⟩

theorem isWritten_of_mem_fillers {token : Token} (filler : token ∈ fillers) :
    token.IsWritten := by
  have word : ∀ text : List Char, Lexeme.IsWord text → ∀ rest,
      Lexeme.scan (text ++ ' ' :: rest) = .ok ⟨.word (String.ofList text), text, ' ' :: rest⟩ :=
    fun text is rest => Lexeme.scan_word is (Rollup.stops_cons rfl)
  simp only [fillers, List.mem_cons, List.not_mem_nil, or_false] at filler
  rcases filler with rfl | rfl | rfl | rfl | rfl
  · exact ⟨['n', 'u', 'l', 'l'], _, word _ (by decide), fun _ _ => by cbv⟩
  · exact ⟨['l', 'i', 'k', 'e'], _, word _ (by decide), fun _ _ => by cbv⟩
  · exact ⟨['i', 'n'], _, word _ (by decide), fun _ _ => by cbv⟩
  · exact ⟨['('], .symbol .leftParen, fun _ => rfl, fun _ _ => rfl⟩
  · exact ⟨[')'], .symbol .rightParen, fun _ => rfl, fun _ _ => rfl⟩

/-- What the tokens of a text can be filled up to is written down with these fillers. -/
theorem Begins.canBegin (begins : Begins (.chain .or) taken)
    (written : ∀ token ∈ taken, token.IsWritten) : CanBegin taken := by
  obtain ⟨more, e, filled, derives⟩ := begins
  have each : ∀ token ∈ taken ++ more, token.IsWritten := List.forall_mem_append.mpr
    ⟨written, fun token member => isWritten_of_mem_fillers (filled member)⟩
  obtain ⟨text, reads⟩ := Token.exists_reads each
  obtain ⟨located, lexed, same⟩ := reads.all
  exact ⟨text, located, e, lexed, same ▸ derives, same ▸ List.prefix_append taken more⟩

theorem CanBegin.passes (begins : CanBegin taken) {depth : Nat} (enough : taken.length ≤ depth) :
    Passes (readWithin (depth + 1)) taken := by
  obtain ⟨-, located, e, -, derives, initial⟩ := begins
  exact derives.passed taken initial depth enough

theorem index_of_ofTokens {index : Nat} (refused : ofTokens tokens = .error index) :
    index = tokens.length - (readWithin (tokens.length + 1)).leaves tokens := by
  unfold ofTokens at refused
  unfold Reader.leaves
  split at refused
  · cases refused
  · rename_i found
    rw [found]
    exact (Except.error.inj refused).symm

/-- The index of a refusal is the number of tokens that a text of the grammar can begin with. -/
theorem canBegin_iff_le {index : Nat} (refused : ofTokens tokens = .error index)
    (written : ∀ token ∈ tokens, token.IsWritten) :
    index ≤ tokens.length ∧
      ∀ count ≤ tokens.length, CanBegin (tokens.take count) ↔ count ≤ index := by
  obtain ⟨taken, behind, split, left, begins⟩ :=
    (viable_readWithin (tokens.length + 1)).begins tokens
  have size := congrArg List.length split
  rw [List.length_append] at size
  have index_ : index = taken.length := by
    rw [index_of_ofTokens refused]
    omega
  refine ⟨by omega, fun count within => ⟨fun can => ?_, fun before => ?_⟩⟩
  · have length : (tokens.take count).length = count := List.length_take_of_le within
    have passes := can.passes (Nat.le_trans (Nat.le_of_eq length) within) (tokens.drop count)
    rw [List.take_append_drop, ← left, List.length_drop] at passes
    omega
  · have whole : CanBegin taken := begins.canBegin fun token member =>
      written token (split ▸ List.mem_append_left behind member)
    have initial : tokens.take count <+: taken := by
      rw [split, List.take_append_of_le_length (by omega)]
      exact List.take_prefix count taken
    exact whole.initial initial

/-- A text of valid tokens that is refused is refused at the first token with which no text of the
grammar can go on, or at its end if one can begin with all the tokens. -/
theorem unexpected_at_first {text : String} {located : List (Located Token)} {fault : ParseError}
    (lexed : Token.all text.toList = .ok located) (refused : parse text = .error fault) :
    (CanBegin (located.map (·.value)) ∧ fault = .unexpected (Text.byteLength text.toList)) ∨
    ∃ before token after, located = before ++ token :: after ∧
      CanBegin (before.map (·.value)) ∧ ¬ CanBegin ((before ++ [token]).map (·.value)) ∧
      fault = .unexpected token.start := by
  have written : ∀ token ∈ located.map (·.value), token.IsWritten := by
    rw [List.forall_mem_map]
    exact Token.isWritten_of_all lexed
  unfold parse at refused
  rw [lexed] at refused
  cases read : ofTokens (located.map (·.value)) with
  | ok e => simp [read] at refused
  | error index =>
    obtain ⟨within, can⟩ := canBegin_iff_le read written
    simp only [read, Except.error.injEq] at refused
    simp only [List.length_map, List.map_take.symm] at within can
    by_cases last : index = located.length
    · subst last
      refine .inl ⟨?_, ?_⟩
      · simpa using (can located.length (Nat.le_refl _)).mpr (Nat.le_refl _)
      · rw [← refused, List.getElem?_eq_none (Nat.le_refl _)]
        rfl
    · have inside : index < located.length := by omega
      refine .inr ⟨located.take index, located[index], located.drop (index + 1), ?_, ?_, ?_, ?_⟩
      · rw [List.getElem_cons_drop, List.take_append_drop]
      · exact (can index within).mpr (Nat.le_refl _)
      · rw [List.take_concat_get']
        intro beyond
        have farther := (can (index + 1) inside).mp beyond
        omega
      · rw [← refused, List.getElem?_eq_getElem inside]
        rfl

theorem unexpected_comparedTwice : ∃ located before token after,
    Token.all "a < b < c".toList = .ok located ∧ parse "a < b < c" = .error (.unexpected 6) ∧
      located = before ++ token :: after ∧ CanBegin (before.map (·.value)) ∧
      ¬ CanBegin ((before ++ [token]).map (·.value)) ∧ token.start = 6 := by
  obtain ⟨located, lexed⟩ : ∃ located, Token.all "a < b < c".toList = .ok located := ⟨_, by cbv⟩
  have refused : parse "a < b < c" = .error (.unexpected 6) := by cbv
  rcases unexpected_at_first lexed refused with ⟨-, last⟩ | ⟨before, token, after, split, can⟩
  · exact absurd last (by decide)
  · exact ⟨located, before, token, after, lexed, refused, split, can.1, can.2.1,
      (ParseError.unexpected.inj can.2.2).symm⟩

end Rollup.Expr
