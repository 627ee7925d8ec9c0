import Mathlib.Data.List.DropRight
import Rollup.Proofs.Expr.Lexeme

/-! What the tokens of a text are.

A number in a text begins with a digit, so its value is not negative. A name is a word and no
keyword, and the name of a placeholder has no blanks around it.
-/

set_option autoImplicit false

namespace Rollup

namespace Text
variable {text : List Char}

/-! ## Trimming -/

theorem trim_initial (text : List Char) : trim text <+: trimStart text := List.rdropWhile_prefix _ _

theorem stops_trimStart (text : List Char) : Stops isBlank (trimStart text) := by
  intro c first
  have shown := List.head?_dropWhile_not isBlank text
  rw [show (text.dropWhile isBlank).head? = some c from first] at shown
  exact Bool.eq_false_iff.mpr (by simpa using shown)

theorem Stops.of_initial {α : Type} {p : α → Bool} {xs ys : List α} (stops : Stops p ys)
    (within : xs <+: ys) : Stops p xs := by
  intro x first
  obtain ⟨rest, rfl⟩ := within
  cases xs with
  | nil => cases first
  | cons y xs => exact stops x first

theorem stops_trim (text : List Char) : Stops isBlank (trim text) :=
  Stops.of_initial (stops_trimStart text) (trim_initial text)

theorem trim_trim (text : List Char) : trim (trim text) = trim text := by
  have first : trimStart (trim text) = trim text := dropWhile_of_stops (stops_trim text)
  have second : trim (trim text) = (trimStart (trim text)).rdropWhile isBlank := rfl
  rw [second, first]
  exact List.rdropWhile_idempotent _ _

theorem trim_of_visible (visible : ∀ c ∈ text, isBlank c = false) : trim text = text := by
  have first : trimStart text = text :=
    dropWhile_of_stops fun c head => visible c (List.mem_of_head? head)
  have second : trim text = (trimStart text).rdropWhile isBlank := rfl
  rw [second, first]
  refine List.rdropWhile_eq_self_iff.mpr fun some_ => ?_
  simp [visible _ (List.getLast_mem some_)]

theorem head?_trim {c : Char} {tail : List Char} (shown : isBlank c = false) :
    (trim (c :: tail)).head? = some c := by
  have whole : trimStart (c :: tail) = c :: tail := dropWhile_of_stops (stops_cons shown)
  obtain ⟨rest, same⟩ := trim_initial (c :: tail)
  rw [whole] at same
  cases trimmed : trim (c :: tail) with
  | nil =>
    have blank := List.rdropWhile_eq_nil_iff.mp
      (show (trimStart (c :: tail)).rdropWhile isBlank = [] from trimmed) c
      (by rw [whole]; exact List.mem_cons_self)
    rw [shown] at blank
    cases blank
  | cons d tail' =>
    rw [trimmed, List.cons_append] at same
    exact congrArg some (List.cons.inj same).1

end Text

namespace Number
variable {text : List Char} {c : Char}

/-! ## Values -/

theorem nonneg_of_readInt? {n : Int} (first : c ∈ text.head?) (digit : isDigit c = true)
    (read : readInt? text = some n) : 0 ≤ n := by
  unfold readInt? at read
  split at read
  · cases first
    cases digit
  · cases first
    cases digit
  · cases found : readNat? text with
    | none => simp [found] at read
    | some m =>
      obtain rfl : (m : Int) = n := by simpa [found] using read
      exact Int.natCast_nonneg m

theorem finite_ofRatio {num den : Nat} (finite : (Binary64.ofRatio false num den).isFinite = true) :
    ∃ code, Binary64.ofRatio false num den = .finite false code := by
  unfold Binary64.ofRatio at finite ⊢
  dsimp only at finite ⊢
  split
  · exact ⟨_, rfl⟩
  · rename_i large
    rw [dif_neg large] at finite
    cases finite

theorem finite_ofDecimal {digits : Nat} {exponent : Int}
    (finite : (ofDecimal false digits exponent).isFinite = true) :
    ∃ code, ofDecimal false digits exponent = .finite false code := by
  unfold ofDecimal at finite ⊢
  dsimp only at finite ⊢
  split_ifs at finite ⊢
  · exact finite_ofRatio finite
  · cases finite
  · exact finite_ofRatio finite
  · exact finite_ofRatio finite

theorem finite_of_readUnsigned? {x : Binary64} (read : readUnsigned? false text = some x)
    (finite : x.isFinite = true) : ∃ code, x = .finite false code := by
  unfold readUnsigned? at read
  dsimp only at read
  split_ifs at read
  · cases read
    cases finite
  · cases read
    cases finite
  · unfold readMagnitude? at read
    dsimp only at read
    split at read <;> split_ifs at read <;>
    · obtain ⟨exponent, -, rfl⟩ := Option.map_eq_some_iff.mp read
      exact finite_ofDecimal finite

theorem finite_of_readBinary64? {x : Binary64} (first : c ∈ text.head?) (digit : isDigit c = true)
    (read : readBinary64? text = some x) (finite : x.isFinite = true) :
    ∃ code, x = .finite false code := by
  unfold readBinary64? at read
  split at read
  · cases first
    cases digit
  · cases first
    cases digit
  · exact finite_of_readUnsigned? read finite

end Number

/-! ## Lexemes -/

namespace Lexeme

open Number

def IsScanned : Lexeme → Prop
  | .word text => IsWord text.toList
  | .number text => ∃ c ∈ text.toList.head?, isDigit c = true
  | .measure text => ∃ c ∈ text.toList.dropLast.head?, isDigit c = true
  | .placeholder name => IsPlaceholder name.toList
  | _ => True

def isQuotedName : Lexeme → Bool
  | .quotedName _ => true
  | _ => false

theorem head?_splitNumber {c : Char} (digit : isDigit c = true) (tail : List Char) :
    (splitNumber (c :: tail)).1.head? = some c := by
  simp only [splitNumber, List.takeWhile_cons, digit, if_true, List.append_assoc, List.cons_append,
    List.head?_cons]

theorem isScanned_scanNumber {c : Char} (digit : isDigit c = true) (tail : List Char) :
    (scanNumber (c :: tail)).lexeme.IsScanned := by
  have first := head?_splitNumber digit tail
  unfold scanNumber
  dsimp only
  split
  · exact ⟨c, by simpa using first, digit⟩
  · rename_i unit rest some_ _
    refine ⟨c, ?_, digit⟩
    rw [String.toList_ofList, List.dropLast_append_of_ne_nil some_]
    cases digits : (splitNumber (c :: tail)).1 with
    | nil =>
      rw [digits] at first
      cases first
    | cons d rest =>
      rw [digits] at first
      exact first

theorem isScanned_of_scanQuoted {mark : Char} {lexeme : String → Lexeme} {text : List Char}
    {scanned : Scanned} (ok : scanQuoted mark lexeme text = .ok scanned)
    (each : ∀ text, (lexeme text).IsScanned) : scanned.lexeme.IsScanned := by
  unfold scanQuoted at ok
  split at ok
  · cases ok
  · cases ok
    exact each _

theorem isScanned_of_scanPlaceholder {text : List Char} {scanned : Scanned}
    (ok : scanPlaceholder text = .ok scanned) : scanned.lexeme.IsScanned := by
  unfold scanPlaceholder at ok
  dsimp only at ok
  split at ok
  · cases ok
  · split at ok
    · cases ok
    · rename_i some_
      cases ok
      refine ⟨by simpa using some_, ?_, ?_⟩
      · rw [String.toList_ofList]
        exact Text.trim_trim _
      · rw [String.toList_ofList]
        intro member
        have within := List.dropWhile_subset _ ((Text.trim_initial _).subset member)
        exact absurd (List.mem_takeWhile_imp within) (by simp)

theorem isScanned_of_scan {text : List Char} {scanned : Scanned} (ok : scan text = .ok scanned) :
    scanned.lexeme.IsScanned := by
  unfold scan at ok
  split at ok
  · cases ok
  · rename_i c tail
    split at ok
    · rename_i digit
      cases ok
      exact isScanned_scanNumber digit tail
    split at ok
    · rename_i starts
      cases ok
      have continues : continuesWord c = true := by
        simp only [startsWord, Bool.or_eq_true, beq_iff_eq] at starts
        rcases starts with alpha | rfl
        · simp [continuesWord, Char.isAlphanum, alpha]
        · rfl
      refine ⟨?_, fun d member => ?_⟩
      · rw [String.toList_ofList, List.takeWhile_cons, if_pos continues]
        exact ⟨c, rfl, starts⟩
      · rw [String.toList_ofList] at member
        exact List.mem_takeWhile_imp member
    split at ok
    · exact isScanned_of_scanQuoted ok fun _ => trivial
    split at ok
    · exact isScanned_of_scanQuoted ok fun _ => trivial
    split at ok
    · exact isScanned_of_scanPlaceholder ok
    split at ok
    · cases ok
      trivial
    · cases ok

theorem scanned_of_allFrom {fuel offset : Nat} {text : List Char}
    {lexemes : List (Located Lexeme)} (ok : allFrom fuel offset text = .ok lexemes) :
    ∀ lexeme ∈ lexemes, ∃ left scanned, scan left = .ok scanned ∧
      scanned.lexeme = lexeme.value := by
  induction fuel generalizing offset text lexemes with
  | zero =>
    cases ok
    simp
  | succ fuel ih =>
    rw [allFrom] at ok
    dsimp only at ok
    split at ok
    · cases ok
      simp
    · split at ok
      · cases ok
      · rename_i scanned first
        obtain ⟨rest, found, rfl⟩ := map_eq_ok.mp ok
        exact List.forall_mem_cons.mpr ⟨⟨_, scanned, first, rfl⟩, ih found⟩

theorem isScanned_of_allFrom {fuel offset : Nat} {text : List Char}
    {lexemes : List (Located Lexeme)} (ok : allFrom fuel offset text = .ok lexemes) :
    ∀ lexeme ∈ lexemes, lexeme.value.IsScanned := by
  intro lexeme member
  obtain ⟨left, scanned, first, same⟩ := scanned_of_allFrom ok lexeme member
  exact same ▸ isScanned_of_scan first

end Lexeme

/-! ## Tokens -/

/-- The value of a literal in a text: no number is negative. Sizes are left out, since they are
written in a unit of their own. -/
def Literal.IsPlain : Literal → Prop
  | .int n => 0 ≤ n ∧ n ≤ Number.maxWord
  | .float x => ∃ code, x = .finite false code
  | .percentage p => ∃ code, p.percent = .finite false code
  | .duration d => d.IsCounted ∧ 0 ≤ d.seconds
  | .size _ => False
  | _ => True

namespace Token

def IsPlain : Token → Prop
  | .name text => Lexeme.IsWord text.toList ∧ ofWord text = .name text
  | .literal value => value.IsPlain
  | .placeholder text => Lexeme.IsPlaceholder text.toList
  | _ => True

def isSize : Token → Bool
  | .literal (.size _) => true
  | _ => false

theorem isPlain_ofWord {word : String} (scanned : Lexeme.IsWord word.toList) :
    (ofWord word).IsPlain := by
  unfold ofWord
  split
  case h_10 => exact ⟨scanned, by simp [ofWord, *]⟩
  all_goals exact True.intro

theorem isPlain_of_ofNumber {text : String} {position : Nat} {token : Token}
    (scanned : ∃ c ∈ text.toList.head?, Number.isDigit c = true)
    (ok : ofNumber text position = .ok token) : token.IsPlain := by
  obtain ⟨c, first, digit⟩ := scanned
  unfold ofNumber at ok
  split at ok
  · rename_i n read
    cases ok
    obtain ⟨read, fits⟩ := Option.filter_eq_some_iff.mp read
    exact ⟨Number.nonneg_of_readInt? first digit read, ((Number.fitsWord_iff n).mp fits).2⟩
  · split at ok
    · rename_i x read
      split at ok
      · rename_i finite
        cases ok
        exact Number.finite_of_readBinary64? first digit read finite
      · cases ok
    · cases ok

theorem isPlain_of_percentage {text : String} {p : Percentage}
    (scanned : ∃ c ∈ text.toList.dropLast.head?, Number.isDigit c = true)
    (ok : Percentage.parse text = .ok p) : (Literal.percentage p).IsPlain := by
  obtain ⟨c, first, digit⟩ := scanned
  rw [Percentage.parse, mapError_eq_ok, Percentage.ofChars] at ok
  split at ok
  · unfold Percentage.ofNumber at ok
    split at ok
    · cases ok
    · rename_i x read
      split at ok
      · rename_i finite
        cases ok
        obtain ⟨tail, body⟩ : ∃ tail, text.toList.dropLast = c :: tail :=
          List.head?_eq_some_iff.mp first
        have shown : c ∈ (Text.trim text.toList.dropLast).head? := by
          rw [body]
          exact Text.head?_trim (Number.isBlank_of_isDigit digit)
        exact Number.finite_of_readBinary64? shown digit read finite
      · cases ok
  · cases ok

theorem isPlain_of_duration {text : String} {d : Duration}
    (scanned : ∃ c ∈ text.toList.dropLast.head?, Number.isDigit c = true)
    (ok : Duration.parse text = .ok d) : (Literal.duration d).IsPlain := by
  refine ⟨Duration.isCounted_of_parse ok, ?_⟩
  obtain ⟨c, first, digit⟩ := scanned
  rw [Duration.parse, mapError_eq_ok, Duration.ofChars] at ok
  split at ok
  · cases ok
  split at ok
  · cases ok
  rw [Duration.ofParts] at ok
  split at ok
  · cases ok
  · rename_i unit _
    split at ok
    · cases ok
    · rename_i count read
      rw [Duration.ofCount] at ok
      split at ok
      · cases ok
        refine Int.mul_nonneg (Number.nonneg_of_readInt? first digit read) ?_
        cases unit <;> decide
      · cases ok

theorem isPlain_of_readMeasure {text : String} {value : Literal}
    (scanned : ∃ c ∈ text.toList.dropLast.head?, Number.isDigit c = true)
    (ok : readMeasure text = .ok value) (sizeless : (literal value).isSize = false) :
    value.IsPlain := by
  unfold readMeasure at ok
  split at ok
  · obtain ⟨p, parsed, rfl⟩ := map_eq_ok.mp ok
    exact isPlain_of_percentage scanned parsed
  case h_6 =>
    obtain ⟨size, -, rfl⟩ := map_eq_ok.mp ok
    cases sizeless
  all_goals
    obtain ⟨d, parsed, rfl⟩ := map_eq_ok.mp ok
    exact isPlain_of_duration scanned parsed

theorem isPlain_of_ofLexeme {lexeme : Located Lexeme} {token : Located Token}
    (scanned : lexeme.value.IsScanned) (unquoted : lexeme.value.isQuotedName = false)
    (ok : ofLexeme lexeme = .ok token) (sizeless : token.value.isSize = false) :
    token.value.IsPlain := by
  unfold ofLexeme at ok
  dsimp only at ok
  cases is : lexeme.value with
  | word text =>
    rw [is] at ok scanned
    cases ok
    exact isPlain_ofWord scanned
  | quotedName text =>
    rw [is] at unquoted
    cases unquoted
  | string text =>
    rw [is] at ok
    cases ok
    trivial
  | number text =>
    rw [is] at ok scanned
    obtain ⟨token, read, rfl⟩ := map_eq_ok.mp ok
    exact isPlain_of_ofNumber scanned read
  | measure text =>
    rw [is] at ok scanned
    obtain ⟨token, read, rfl⟩ := map_eq_ok.mp ok
    unfold ofMeasure at read
    split at read
    · rename_i value measured
      cases read
      exact isPlain_of_readMeasure scanned measured sizeless
    · cases read
  | placeholder name =>
    rw [is] at ok scanned
    cases ok
    exact scanned
  | symbol value =>
    rw [is] at ok
    cases ok
    trivial

/-- A text without quoted names and sizes. -/
def IsBare (text : String) : Prop :=
  (∀ lexemes ∈ (Lexeme.all text.toList).toOption, ∀ lexeme ∈ lexemes,
    lexeme.value.isQuotedName = false) ∧
  ∀ tokens ∈ (Token.all text.toList).toOption, ∀ token ∈ tokens, token.value.isSize = false

theorem isPlain_of_all {text : String} (bare : IsBare text) {tokens : List (Located Token)}
    (ok : Token.all text.toList = .ok tokens) : ∀ token ∈ tokens, token.value.IsPlain := by
  intro token member
  have sizeless := bare.2 tokens (toOption_eq_some.mpr ok) token member
  obtain ⟨lexemes, cut, read⟩ := bind_eq_ok.mp ok
  obtain ⟨lexeme, listed, is⟩ := related_of_mem_right (mapM_eq_ok.mp read) member
  exact isPlain_of_ofLexeme (Lexeme.isScanned_of_allFrom cut lexeme listed)
    (bare.1 lexemes (toOption_eq_some.mpr cut) lexeme listed) is sizeless

end Token

end Rollup
