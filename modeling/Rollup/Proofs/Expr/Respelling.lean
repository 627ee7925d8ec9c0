import Rollup.Proofs.Expr.Token

/-! Writing tokens anew.

Whatever a lexeme is followed by in a text, it is split off in the same way when a blank follows
it. So the tokens of a text can be written down one by one, and other tokens behind them.
-/

set_option autoImplicit false

namespace Rollup

namespace Lexeme

open Number

variable {text rest : List Char}

/-! ## Numbers -/

theorem isFraction_splitFraction (text : List Char) : IsFraction (splitFraction text).1 := by
  unfold splitFraction
  split
  · rename_i rest
    cases digits : rest.takeWhile isDigit with
    | nil => exact .none
    | cons c more =>
      refine .some ⟨List.cons_ne_nil _ _, fun d member => ?_⟩
      exact List.mem_takeWhile_imp (digits ▸ member)
  · exact .none

theorem isSign_splitSign (text : List Char) : IsSign (splitSign text).1 := by
  unfold splitSign
  split
  · exact .inr (.inl rfl)
  · exact .inr (.inr rfl)
  · exact .inl rfl

theorem isPower_splitExponent (text : List Char) : IsPower (splitExponent text).1 := by
  unfold splitExponent
  split
  · exact .none
  · rename_i c tail
    obtain ⟨sign, digits, found⟩ : ∃ sign digits, splitSign tail = (sign, digits) := ⟨_, _, rfl⟩
    have signed : IsSign sign := by simpa [found] using isSign_splitSign tail
    split_ifs with opens
    · rw [found]
      dsimp only
      split
      · exact .none
      · rename_i some_
        exact .some opens signed ⟨some_, fun _ member => List.mem_takeWhile_imp member⟩
    · exact .none

theorem splitNumber_again (text : List Char) (ends : EndsNumber rest) :
    splitNumber ((splitNumber text).1 ++ rest) = ((splitNumber text).1, rest) := by
  have whole : ∀ c ∈ text.takeWhile isDigit, isDigit c = true :=
    fun _ member => List.mem_takeWhile_imp member
  obtain ⟨fraction, middle, found⟩ :
      ∃ fraction middle, splitFraction (text.dropWhile isDigit) = (fraction, middle) := ⟨_, _, rfl⟩
  have point : IsFraction fraction := by
    simpa [found] using isFraction_splitFraction (text.dropWhile isDigit)
  have first : (splitNumber text).1 =
      text.takeWhile isDigit ++ (fraction ++ (splitExponent middle).1) := by
    simp only [splitNumber, found, List.append_assoc]
  rw [first]
  exact splitNumber_parts whole point (isPower_splitExponent middle) ends

/-! ## Units -/

inductive IsUnit : List Char → Prop
  | percent : IsUnit ['%']
  | letters {text : List Char} (each : ∀ c ∈ text, c.isAlpha = true) : IsUnit text

theorem isUnit_splitUnit (text : List Char) : IsUnit (splitUnit text).1 := by
  unfold splitUnit
  split
  · exact .percent
  · exact .letters fun _ member => List.mem_takeWhile_imp member

theorem startsWord_of_isAlpha {c : Char} (letter : c.isAlpha = true) : startsWord c = true := by
  simp [startsWord, letter]

theorem splitUnit_again {unit : List Char} (is : IsUnit unit) (other : List Char) :
    splitUnit (unit ++ ' ' :: other) = (unit, ' ' :: other) := by
  cases is with
  | percent => rfl
  | letters each =>
    have stops : Stops Char.isAlpha (' ' :: other) := stops_cons rfl
    have taken := takeWhile_append_of_stops each stops
    have left := dropWhile_append_of_stops each stops
    unfold splitUnit
    split
    · rename_i same
      cases unit with
      | nil => cases same
      | cons c more =>
        cases same
        exact absurd (each '%' List.mem_cons_self) (by decide)
    · rw [taken, left]

theorem endsNumber_unit {unit : List Char} (is : IsUnit unit) (other : List Char) :
    EndsNumber (unit ++ ' ' :: other) := by
  cases is with
  | percent => exact ⟨stops_cons rfl, stops_cons rfl, rfl⟩
  | letters each =>
    cases unit with
    | nil => exact ⟨stops_cons rfl, stops_cons rfl, rfl⟩
    | cons c more =>
      obtain ⟨letter, letters⟩ := List.forall_mem_cons.mp each
      have plain : ∀ x, x.isAlpha = true → isDigit x = false :=
        fun x is => isDigit_of_startsWord (startsWord_of_isAlpha is)
      refine ⟨stops_cons (plain c letter), stops_cons ?_, ?_⟩
      · refine beq_eq_false_iff_ne.mpr fun same => ?_
        subst same
        cases letter
      · -- A letter behind the `e` is neither a sign nor a digit.
        have next : splitSign (more ++ ' ' :: other) = ([], more ++ ' ' :: other) ∧
            (more ++ ' ' :: other).takeWhile isDigit = [] := by
          cases more with
          | nil => exact ⟨rfl, rfl⟩
          | cons d more =>
            have second := letters d List.mem_cons_self
            refine ⟨?_, by simp [plain d second]⟩
            apply splitSign_of_ne <;>
            · rintro rfl
              cases second
        rw [List.cons_append, splitExponent, next.1]
        split_ifs
        · simp only [next.2]
        · rfl

theorem scanNumber_again (text other : List Char) :
    scanNumber ((scanNumber text).written ++ ' ' :: other) =
      ⟨(scanNumber text).lexeme, (scanNumber text).written, ' ' :: other⟩ := by
  obtain ⟨digits, rest, number⟩ : ∃ digits rest, splitNumber text = (digits, rest) := ⟨_, _, rfl⟩
  obtain ⟨unit, behind, found⟩ : ∃ unit behind, splitUnit rest = (unit, behind) := ⟨_, _, rfl⟩
  have is : IsUnit unit := by simpa [found] using isUnit_splitUnit rest
  have first := splitNumber_again text (endsNumber_unit is other)
  rw [number] at first
  have second := splitUnit_again is other
  cases unit with
  | nil =>
    have scanned : scanNumber text = ⟨.number (String.ofList digits), digits, behind⟩ := by
      simp only [scanNumber, number, found]
    rw [scanned]
    simp only [scanNumber]
    rw [List.nil_append] at first second
    rw [first]
    dsimp only
    rw [second]
  | cons c more =>
    have scanned : scanNumber text = ⟨.measure (String.ofList (digits ++ c :: more)),
        digits ++ c :: more, behind⟩ := by
      simp only [scanNumber, number, found]
    rw [scanned]
    simp only [scanNumber, List.append_assoc]
    rw [first]
    dsimp only
    rw [second]

theorem head?_scanNumber {c : Char} (digit : isDigit c = true) (tail : List Char) :
    (scanNumber (c :: tail)).written.head? = some c := by
  have first := head?_splitNumber digit tail
  unfold scanNumber
  dsimp only
  split
  · exact first
  · rw [List.head?_append, first]
    rfl

/-! ## Lexemes -/

theorem scan_of_quoted {mark : Char} {lexeme : String → Lexeme} {scanned : Scanned}
    (ok : scanQuoted mark lexeme text = .ok scanned) : ∃ inner,
      scanned.lexeme = lexeme (String.ofList inner) ∧
        scanned.written = Text.quoteChars mark inner := by
  unfold scanQuoted at ok
  split at ok
  · cases ok
  · rename_i found
    obtain ⟨inner, rfl⟩ := Text.exists_double_of_splitQuoted found
    cases ok
    exact ⟨inner, by rw [Text.undouble_double], rfl⟩

theorem scanPlaceholder_again {scanned : Scanned} (ok : scanPlaceholder text = .ok scanned)
    (other : List Char) : scan (scanned.written ++ ' ' :: other) =
      .ok ⟨scanned.lexeme, scanned.written, ' ' :: other⟩ := by
  unfold scanPlaceholder at ok
  dsimp only at ok
  split at ok
  · cases ok
  · split at ok
    · cases ok
    · rename_i some_
      cases ok
      have closed : ∀ c ∈ text.takeWhile (· != '\x7d'), (c != '\x7d') = true :=
        fun _ member => List.mem_takeWhile_imp (p := (· != '\x7d')) member
      rw [List.cons_append, List.append_assoc]
      exact scanPlaceholder_body closed rfl some_

theorem scanSymbol_again {sign : Symbol} {written : List Char}
    (found : scanSymbol? text = some (sign, written, rest)) (other : List Char) :
    scan (written ++ ' ' :: other) = .ok ⟨.symbol sign, written, ' ' :: other⟩ := by
  unfold scanSymbol? at found
  split at found <;> cases found <;> rfl

theorem scan_again {scanned : Scanned} (ok : scan text = .ok scanned) (other : List Char) :
    scan (scanned.written ++ ' ' :: other) =
      .ok ⟨scanned.lexeme, scanned.written, ' ' :: other⟩ := by
  have word := isScanned_of_scan ok
  unfold scan at ok
  split at ok
  · cases ok
  rename_i c tail
  split at ok
  · rename_i digit
    cases ok
    have again := scanNumber_again (c :: tail) other
    obtain ⟨more, begins⟩ := List.head?_eq_some_iff.mp (head?_scanNumber digit tail)
    rw [begins, List.cons_append] at again ⊢
    rw [scan_of_digit digit, again]
  split at ok
  · cases ok
    rw [IsScanned, String.toList_ofList] at word
    exact scan_word word (stops_cons rfl)
  split at ok
  · obtain ⟨inner, is, written⟩ := scan_of_quoted ok
    rw [is, written]
    exact scan_quoted (fun _ => rfl) inner (stops_cons rfl)
  split at ok
  · obtain ⟨inner, is, written⟩ := scan_of_quoted ok
    rw [is, written]
    exact scan_quoted (fun _ => rfl) inner (stops_cons rfl)
  split at ok
  · exact scanPlaceholder_again ok other
  split at ok
  · rename_i found
    cases ok
    exact scanSymbol_again found other
  · cases ok

theorem isBlank_of_symbol {sign : Symbol} {written : List Char}
    (found : scanSymbol? text = some (sign, written, rest)) :
    ∀ c ∈ text.head?, Text.isBlank c = false := by
  unfold scanSymbol? at found
  split at found <;> cases found
  all_goals
    intro c first
    cases first
    rfl

theorem isBlank_of_scan {c : Char} {tail : List Char} {scanned : Scanned}
    (ok : scan (c :: tail) = .ok scanned) : Text.isBlank c = false := by
  unfold scan at ok
  dsimp only at ok
  split_ifs at ok with digit starts string name brace
  · exact isBlank_of_isDigit digit
  · exact isBlank_of_startsWord starts
  · exact string ▸ rfl
  · exact name ▸ rfl
  · exact brace ▸ rfl
  · split at ok
    · rename_i found
      exact isBlank_of_symbol found c rfl
    · cases ok

end Lexeme

/-! ## Tokens -/

namespace Token

/-- A token that is written somehow, whatever stands behind the blank that follows it. -/
def IsWritten (token : Token) : Prop :=
  ∃ (piece : List Char) (lexeme : Lexeme),
    (∀ rest, Lexeme.scan (piece ++ ' ' :: rest) = .ok ⟨lexeme, piece, ' ' :: rest⟩) ∧
    ∀ start stop, (ofLexeme ⟨start, stop, lexeme⟩).map (·.value) = .ok token

theorem value_ofLexeme {lexeme : Located Lexeme} {token : Located Token}
    (ok : ofLexeme lexeme = .ok token) (start stop : Nat) :
    (ofLexeme ⟨start, stop, lexeme.value⟩).map (·.value) = .ok token.value := by
  obtain ⟨first, last, value⟩ := lexeme
  cases value with
  | number text =>
    obtain ⟨read, found, rfl⟩ := map_eq_ok.mp ok
    have again : ofNumber text start = .ok read := by
      unfold ofNumber at found ⊢
      split
      · simp_all
      · split
        · split <;> simp_all
        · simp_all
    simp [ofLexeme, again, Except.map]
  | measure text =>
    obtain ⟨read, found, rfl⟩ := map_eq_ok.mp ok
    have again : ofMeasure text start = .ok read := by
      unfold ofMeasure at found ⊢
      split <;> simp_all
    simp [ofLexeme, again, Except.map]
  | _ =>
    cases ok
    rfl

theorem isWritten_of_all {text : List Char} {located : List (Located Token)}
    (ok : all text = .ok located) : ∀ token ∈ located, token.value.IsWritten := by
  intro token member
  obtain ⟨lexemes, cut, read⟩ := bind_eq_ok.mp ok
  obtain ⟨lexeme, listed, is⟩ := related_of_mem_right (mapM_eq_ok.mp read) member
  obtain ⟨left, scanned, split_, same⟩ := Lexeme.scanned_of_allFrom cut lexeme listed
  refine ⟨scanned.written, scanned.lexeme, Lexeme.scan_again split_, fun start stop => ?_⟩
  rw [same]
  exact value_ofLexeme is start stop

theorem exists_reads {tokens : List Token} (each : ∀ token ∈ tokens, token.IsWritten) :
    ∃ text, Reads text tokens := by
  induction tokens with
  | nil => exact ⟨[], reads_nil⟩
  | cons token tokens ih =>
    obtain ⟨head, tail⟩ := List.forall_mem_cons.mp each
    obtain ⟨piece, lexeme, scanned, is⟩ := head
    obtain ⟨text, reads⟩ := ih tail
    have nonempty : piece ≠ [] := by
      rintro rfl
      exact absurd (Lexeme.isBlank_of_scan (scanned text)) (by decide)
    refine ⟨piece ++ ' ' :: text, Reads.lexeme (scanned text) ?_ nonempty is reads.blank⟩
    intro c first
    obtain ⟨more, rfl⟩ := List.head?_eq_some_iff.mp first
    exact Lexeme.isBlank_of_scan (scanned text)

end Token

end Rollup
