import Rollup.Expr.Token
import Rollup.Proofs.Computation
import Rollup.Proofs.Number.Numeral
import Rollup.Proofs.Text.Quoted
import Rollup.Proofs.Value.Duration

/-! Cutting what is written into tokens.

A lexeme is split off a text if what is behind it does not go on with it. A blank, a closing
parenthesis and a comma end whatever stands in front of them, so texts that are read one by one are
read one behind the other.
-/

set_option autoImplicit false

namespace Rollup

namespace Lexeme

open Number

variable {text rest : List Char}

/-- What ends any text in front of it. -/
def isClosing (c : Char) : Bool := c == ' ' || c == ')' || c == ','

def Closes (rest : List Char) : Prop := ∀ c ∈ rest.head?, isClosing c = true

theorem closes_nil : Closes [] := fun _ member => nomatch member

theorem closes_cons {c : Char} (is : isClosing c = true) : Closes (c :: rest) := by
  intro d first
  obtain rfl := Option.some.inj first
  exact is

theorem Closes.stops {p : Char → Bool} (closes : Closes rest) (blank : p ' ' = false)
    (closing : p ')' = false) (comma : p ',' = false) : Stops p rest := by
  intro c first
  have is := closes c first
  simp only [isClosing, Bool.or_eq_true, beq_iff_eq] at is
  rcases is with (rfl | rfl) | rfl <;> assumption

/-! ## Scanning -/

structure IsWord (word : List Char) : Prop where
  first : ∃ c ∈ word.head?, startsWord c = true
  each : ∀ c ∈ word, continuesWord c = true

theorem isWord_iff :
    IsWord text ↔ text.head?.any startsWord = true ∧ text.all continuesWord = true := by
  rw [List.all_eq_true, Option.any_eq_true]
  exact ⟨fun word => ⟨word.first, word.each⟩, fun ⟨first, each⟩ => ⟨first, each⟩⟩

instance : DecidablePred IsWord := fun _ => decidable_of_iff _ isWord_iff.symm

/-- The name of a placeholder as it is kept: without blanks around it. -/
structure IsPlaceholder (name : List Char) : Prop where
  nonempty : name ≠ []
  trimmed : Text.trim name = name
  open_ : '\x7d' ∉ name

theorem toNat_of_startsWord {c : Char} (starts : startsWord c = true) :
    65 ≤ c.toNat ∧ c.toNat ≤ 122 := by
  delta startsWord Char.isAlpha Char.isUpper Char.isLower at starts
  simp only [Bool.or_eq_true, Bool.and_eq_true, decide_eq_true_eq, beq_iff_eq,
    UInt32.le_iff_toNat_le] at starts
  have value : c.val.toNat = c.toNat := rfl
  rcases starts with (upper | lower) | rfl
  · simp at upper
    omega
  · simp at lower
    omega
  · decide

theorem isDigit_of_startsWord {c : Char} (starts : startsWord c = true) : isDigit c = false := by
  have within := toNat_of_startsWord starts
  have nine : '9'.toNat = 57 := rfl
  simp only [isDigit, Bool.and_eq_false_iff, decide_eq_false_iff_not]
  omega

theorem isBlank_of_startsWord {c : Char} (starts : startsWord c = true) :
    Text.isBlank c = false := by
  have within := toNat_of_startsWord starts
  simp only [Text.isBlank, Bool.or_eq_false_iff, Bool.and_eq_false_iff, decide_eq_false_iff_not,
    beq_eq_false_iff_ne]
  omega

theorem scan_word (word : IsWord text) (stops : Stops continuesWord rest) :
    scan (text ++ rest) = .ok ⟨.word (String.ofList text), text, rest⟩ := by
  obtain ⟨c, first, starts⟩ := word.first
  obtain ⟨tail, rfl⟩ : ∃ tail, text = c :: tail := by
    cases text with
    | nil => cases first
    | cons d tail => exact ⟨tail, congrArg (· :: tail) (Option.some.inj first)⟩
  have taken := takeWhile_append_of_stops word.each stops
  have left := dropWhile_append_of_stops word.each stops
  rw [List.cons_append] at taken left ⊢
  rw [scan, if_neg (by simp [isDigit_of_startsWord starts]), if_pos starts, taken, left]

theorem scan_of_digit {c : Char} (digit : isDigit c = true) (tail : List Char) :
    scan (c :: tail) = .ok (scanNumber (c :: tail)) := if_pos digit

theorem scan_numeral (numeral : IsNumeral text) (closes : Closes rest) :
    scan (text ++ rest) = .ok ⟨.number (String.ofList text), text, rest⟩ := by
  obtain ⟨c, tail, rfl, digit⟩ := numeral.head
  have split_ := splitNumber_append numeral (closes.stops rfl rfl rfl)
  have letters : Stops Char.isAlpha rest := closes.stops rfl rfl rfl
  have unitless : splitUnit rest = ([], rest) := by
    unfold splitUnit
    split
    · exact absurd (closes '%' rfl) (by decide)
    · have none_ : ∀ c ∈ ([] : List Char), c.isAlpha = true := fun _ member => nomatch member
      have taken := takeWhile_append_of_stops none_ letters
      rw [dropWhile_of_stops letters, ← List.nil_append rest, taken]
  rw [List.cons_append] at split_ ⊢
  rw [scan_of_digit digit, scanNumber, split_]
  dsimp only
  rw [unitless]

theorem scan_percentage (numeral : IsNumeral text) : scan (text ++ '%' :: rest) =
    .ok ⟨.measure (String.ofList (text ++ ['%'])), text ++ ['%'], rest⟩ := by
  obtain ⟨c, tail, rfl, digit⟩ := numeral.head
  have stops : Stops Number.continues ('%' :: rest) := stops_cons rfl
  have split_ := splitNumber_append numeral stops
  rw [List.cons_append] at split_ ⊢
  rw [scan_of_digit digit, scanNumber, split_]
  rfl

theorem scan_duration (digits : IsDigits text) (unit : DurationUnit) (closes : Closes rest) :
    scan (text ++ unit.suffix :: rest) =
      .ok ⟨.measure (String.ofList (text ++ [unit.suffix])), text ++ [unit.suffix], rest⟩ := by
  have numeral := digits.isNumeral
  obtain ⟨c, tail, rfl, digit⟩ := digits.head
  have apart : Number.continues unit.suffix = false := by cases unit <;> rfl
  have stops : Stops Number.continues (unit.suffix :: rest) := stops_cons apart
  have split_ := splitNumber_append numeral stops
  have letters : Stops Char.isAlpha rest := closes.stops rfl rfl rfl
  have one : ∀ c ∈ [unit.suffix], c.isAlpha = true :=
    List.forall_mem_singleton.mpr (by cases unit <;> rfl)
  have taken := takeWhile_append_of_stops one letters
  have left := dropWhile_append_of_stops one letters
  have units : splitUnit (unit.suffix :: rest) = ([unit.suffix], rest) := by
    unfold splitUnit
    split
    · rename_i same
      cases unit <;> cases same
    · exact congrArg₂ Prod.mk taken left
  rw [List.cons_append] at split_ ⊢
  rw [scan_of_digit digit, scanNumber, split_]
  dsimp only
  rw [units]

theorem scanQuoted_double {mark : Char} (lexeme : String → Lexeme) (text : List Char)
    (stops : Stops (· == mark) rest) :
    scanQuoted mark lexeme (Text.double mark text ++ mark :: rest) =
      .ok ⟨lexeme (String.ofList text), Text.quoteChars mark text, rest⟩ := by
  rw [scanQuoted, Text.splitQuoted_double stops]
  dsimp only
  rw [Text.undouble_double, Text.quoteChars]

theorem quoteChars_append (mark : Char) (text rest : List Char) :
    Text.quoteChars mark text ++ rest = mark :: (Text.double mark text ++ mark :: rest) := by
  simp [Text.quoteChars]

theorem scan_quoted {mark : Char} {lexeme : String → Lexeme}
    (opens : ∀ behind, scan (mark :: behind) = scanQuoted mark lexeme behind) (text : List Char)
    (stops : Stops (· == mark) rest) :
    scan (Text.quoteChars mark text ++ rest) =
      .ok ⟨lexeme (String.ofList text), Text.quoteChars mark text, rest⟩ := by
  rw [quoteChars_append, opens]
  exact scanQuoted_double lexeme text stops

theorem scanPlaceholder_body {name : List Char} (closed : ∀ c ∈ text, (c != '\x7d') = true)
    (is : Text.trim text = name) (nonempty : name ≠ []) :
    scanPlaceholder (text ++ '\x7d' :: rest) =
      .ok ⟨.placeholder (String.ofList name), '\x7b' :: (text ++ ['\x7d']), rest⟩ := by
  have stops : Stops (· != '\x7d') ('\x7d' :: rest) := stops_cons rfl
  rw [scanPlaceholder, takeWhile_append_of_stops closed stops,
    dropWhile_append_of_stops closed stops]
  dsimp only
  rw [is]
  cases name with
  | nil => exact absurd rfl nonempty
  | cons c tail => rfl

theorem scan_placeholder (named : IsPlaceholder text) :
    scan ('\x7b' :: (text ++ '\x7d' :: rest)) =
      .ok ⟨.placeholder (String.ofList text), '\x7b' :: (text ++ ['\x7d']), rest⟩ := by
  have closed : ∀ c ∈ text, (c != '\x7d') = true := by
    intro c member
    exact bne_iff_ne.mpr fun same => named.open_ (same ▸ member)
  exact scanPlaceholder_body closed named.trimmed named.nonempty

end Lexeme

/-! ## Reading -/

namespace Token
variable {text rest : List Char} {tokens : List Token}

/-- The tokens that a text has wherever it stands. -/
def Reads (text : List Char) (tokens : List Token) : Prop :=
  ∀ fuel offset, text.length < fuel → ∃ lexemes, Lexeme.allFrom fuel offset text = .ok lexemes ∧
    List.Forall₂ (fun lexeme token => (ofLexeme lexeme).map (·.value) = .ok token) lexemes tokens

theorem reads_nil : Reads [] [] := by
  intro fuel offset enough
  cases fuel with
  | zero => cases enough
  | succ fuel => exact ⟨[], rfl, .nil⟩

theorem Reads.blank (reads : Reads text tokens) : Reads (' ' :: text) tokens := by
  intro fuel offset enough
  cases fuel with
  | zero => cases enough
  | succ fuel =>
    have same : Lexeme.allFrom (fuel + 1) offset (' ' :: text) =
        Lexeme.allFrom (fuel + 1) (offset + 1) text := by
      have first : Text.isBlank ' ' = true := rfl
      have size : Char.utf8Size ' ' = 1 := rfl
      rw [Lexeme.allFrom, Lexeme.allFrom]
      simp only [List.takeWhile_cons, List.dropWhile_cons, first, if_true, Text.byteLength, size,
        Nat.add_assoc]
    rw [same]
    exact reads (fuel + 1) (offset + 1) (Nat.lt_of_succ_lt enough)

theorem Reads.lexeme {piece : List Char} {lexeme : Lexeme} {token : Token}
    (scanned : Lexeme.scan (piece ++ rest) = .ok ⟨lexeme, piece, rest⟩)
    (shown : ∀ c ∈ piece.head?, Text.isBlank c = false) (nonempty : piece ≠ [])
    (is : ∀ start stop, (ofLexeme ⟨start, stop, lexeme⟩).map (·.value) = .ok token)
    (reads : Reads rest tokens) : Reads (piece ++ rest) (token :: tokens) := by
  intro fuel offset enough
  cases fuel with
  | zero => cases enough
  | succ fuel =>
    obtain ⟨c, tail, rfl⟩ := List.exists_cons_of_ne_nil nonempty
    have visible := shown c rfl
    have fits : rest.length < fuel := by
      simp only [List.length_append, List.length_cons] at enough
      omega
    rw [List.cons_append] at scanned
    obtain ⟨lexemes, found, each⟩ := reads fuel (offset + Text.byteLength (c :: tail)) fits
    refine ⟨⟨offset, offset + Text.byteLength (c :: tail), lexeme⟩ :: lexemes, ?_,
      .cons (is _ _) each⟩
    rw [List.cons_append, Lexeme.allFrom]
    simp only [List.takeWhile_cons, List.dropWhile_cons, visible, Bool.false_eq_true, if_false,
      scanned, Text.byteLength, Nat.add_zero]
    rw [← Text.byteLength.eq_2, found]
    rfl

theorem Reads.all (reads : Reads text tokens) :
    ∃ located, Token.all text = .ok located ∧ located.map (·.value) = tokens := by
  obtain ⟨lexemes, found, each⟩ := reads (text.length + 1) 0 (Nat.lt_succ_self _)
  obtain ⟨located, read, same⟩ : ∃ located, lexemes.mapM ofLexeme = .ok located ∧
      located.map (·.value) = tokens := by
    clear found reads
    induction each with
    | nil => exact ⟨[], rfl, rfl⟩
    | @cons lexeme token lexemes tokens is _ ih =>
      obtain ⟨located, read, rfl⟩ := ih
      obtain ⟨first, ok, rfl⟩ := map_eq_ok.mp is
      refine ⟨first :: located, ?_, rfl⟩
      rw [List.mapM_cons, ok, read]
      rfl
  refine ⟨located, ?_, same⟩
  rw [Token.all, Lexeme.all, found]
  exact read

end Token

end Rollup
