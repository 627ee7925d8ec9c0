import Rollup.Proofs.Number.Digits
import Rollup.Sql.Database
import Rollup.Sql.Spelling

/-! Comments in the texts of statements.

A reader of a statement that meets two minus signs, or a slash and a star, outside of quotes takes
what follows for a comment. The tokens of the known dialects open none by themselves, so a comment
can only open between two tokens: where a token that begins with a minus stands right behind a
minus, or a star right behind a slash. Blanks keep tokens apart, and those that are left out in a
text on one line stand where nothing can clash.
-/

set_option autoImplicit false

namespace Rollup.Sql

/-- Where a reader of a statement stands: outside of quotes, there right behind a minus or a slash,
or between quotes. -/
inductive Place where
  | plain
  | minus
  | slash
  | quoted (mark : Char)
  deriving DecidableEq, Repr

def isQuote (c : Char) : Bool := c == '\'' || c == '"' || c == '\x60'

namespace Place

/-- Whether a character makes a comment of the one before it. -/
def opens : Place → Char → Bool
  | .minus, c => c == '-'
  | .slash, c => c == '*'
  | _, _ => false

/-- The place behind a character that opens no comment. A doubled quote leaves the quotes and enters
them again. -/
def behind : Place → Char → Place
  | .quoted mark, c => if c = mark then .plain else .quoted mark
  | _, c =>
    if isQuote c then .quoted c else if c = '-' then .minus else if c = '/' then .slash else .plain

def next? (place : Place) (c : Char) : Option Place :=
  if place.opens c then none else some (place.behind c)

/-- The place behind a text, unless a comment opens in it. -/
def read (place : Place) (text : List Char) : Option Place := text.foldlM next? place

def isOutside : Place → Bool
  | .quoted _ => false
  | _ => true

end Place

/-- Whether a comment opens in a text, outside of its quotes. -/
def opensComment (text : String) : Bool := (Place.plain.read text.toList).isNone

/-! ## Characters -/

/-- Whether a character neither begins a comment nor is a quote. -/
def isInert (c : Char) : Bool := !(c == '-' || c == '/' || c == '*' || isQuote c)

def isWord (text : String) : Bool := !text.toList.isEmpty && text.toList.all isInert

theorem isInert_of_isDigit {c : Char} (digit : c.isDigit = true) : isInert c = true := by
  have apart : ∀ other : Char, other.isDigit = false → (c == other) = false := by
    rintro other no
    refine beq_eq_false_iff_ne.mpr ?_
    rintro rfl
    cases digit.symm.trans no
  simp [isInert, isQuote, apart]

theorem inert_toDigits (n : Nat) : ∀ c ∈ Nat.toDigits 10 n, isInert c = true :=
  fun _ member =>
    isInert_of_isDigit (Nat.isDigit_of_mem_toDigits (by decide) (Nat.le_refl 10) member)

namespace Place
variable {place : Place} {text : List Char}

theorem read_cons (c : Char) (text : List Char) :
    place.read (c :: text) = (place.next? c).bind (·.read text) := rfl

theorem read_append (first second : List Char) :
    place.read (first ++ second) = (place.read first).bind (·.read second) :=
  List.foldlM_append

theorem next?_of_isInert {c : Char} (outside : place.isOutside = true) (inert : isInert c = true) :
    place.next? c = some .plain := by
  simp only [isInert, Bool.not_eq_true', Bool.or_eq_false_iff, beq_eq_false_iff_ne] at inert
  obtain ⟨⟨⟨minus, slash⟩, star⟩, quote⟩ := inert
  cases place with
  | quoted mark => cases outside
  | _ => simp [next?, opens, behind, minus, slash, star, quote]

theorem read_plain (inert : ∀ c ∈ text, isInert c = true) :
    Place.plain.read text = some .plain := by
  induction text with
  | nil => rfl
  | cons c text ih =>
    obtain ⟨first, rest⟩ := List.forall_mem_cons.mp inert
    rw [read_cons, next?_of_isInert rfl first]
    exact ih rest

/-- Texts that open no comment wherever they stand outside of quotes, and end there. -/
def Closed (text : List Char) : Prop :=
  ∀ place : Place, place.isOutside = true → place.read text = some .plain

theorem closed_of_inert (nonempty : text ≠ []) (inert : ∀ c ∈ text, isInert c = true) :
    Closed text := by
  intro place outside
  cases text with
  | nil => exact absurd rfl nonempty
  | cons c text =>
    obtain ⟨first, rest⟩ := List.forall_mem_cons.mp inert
    rw [read_cons, next?_of_isInert outside first]
    exact read_plain rest

theorem closed_of_isWord {word : String} (is : isWord word = true) : Closed word.toList := by
  simp only [isWord, Bool.and_eq_true, Bool.not_eq_true', List.isEmpty_eq_false_iff,
    List.all_eq_true] at is
  exact closed_of_inert is.1 is.2

theorem Closed.append {rest : List Char} (closed : Closed text)
    (plain : Place.plain.read rest = some .plain) : Closed (text ++ rest) := by
  intro place outside
  rw [read_append, closed place outside]
  exact plain

theorem next?_of_isQuote {mark : Char} (outside : place.isOutside = true)
    (quote : isQuote mark = true) : place.next? mark = some (.quoted mark) := by
  have minus : mark ≠ '-' := by rintro rfl; cases quote
  have star : mark ≠ '*' := by rintro rfl; cases quote
  cases place with
  | quoted mark => cases outside
  | _ => simp [next?, opens, behind, minus, star, quote]

theorem read_signed (closed : Closed text) (outside : place.isOutside = true) :
    place.read ('-' :: text) = if place = .minus then none else some .plain := by
  cases place with
  | quoted mark => cases outside
  | minus => rfl
  | _ => exact closed .minus rfl

theorem read_double {mark : Char} (quote : isQuote mark = true) (rest : List Char) :
    (Place.quoted mark).read (Text.double mark text ++ rest) = (Place.quoted mark).read rest := by
  have leave : (Place.quoted mark).next? mark = some .plain := by simp [next?, opens, behind]
  induction text with
  | nil => rfl
  | cons c text ih =>
    rw [Text.double]
    split
    · rw [List.cons_append, List.cons_append, read_cons, leave, Option.bind_some, read_cons,
        next?_of_isQuote rfl quote]
      exact ih
    · rename_i other
      have stay : (Place.quoted mark).next? c = some (.quoted mark) := by
        simp [next?, opens, behind, other]
      rw [List.cons_append, read_cons, stay]
      exact ih

theorem closed_quote {mark : Char} (quote : isQuote mark = true) (text : String) :
    Closed (Text.quote mark text).toList := by
  intro place outside
  rw [Text.quote, String.toList_ofList, Text.quoteChars, read_cons, next?_of_isQuote outside quote]
  refine (read_double quote [mark]).trans ?_
  simp [read, next?, opens, behind]

end Place

/-! ## Tokens -/

namespace Token

/-- The place behind a token. -/
def place : Token → Place
  | .mark .minus => .minus
  | .mark .divide => .slash
  | _ => .plain

def isSigned : Token → Bool
  | .mark .minus => true
  | .int n => n < 0
  | .float (.finite negative _) => negative
  | _ => false

def isStar : Token → Bool
  | .mark .times | .mark .star => true
  | _ => false

/-- Whether a comment opens where a token comes. -/
def clashes (token : Token) : Place → Bool
  | .minus => token.isSigned
  | .slash => token.isStar
  | _ => false

def next? (place : Place) (token : Token) : Option Place :=
  if token.clashes place then none else some token.place

/-- Tokens whose texts are read as the tokens are: a comment opens at their beginning or not at
all. -/
def Tame (d : Dialect) (token : Token) : Prop :=
  ∀ place : Place, place.isOutside = true → place.read (token.text d).toList = next? place token

end Token

/-- Dialects that put names and strings in quotes and have words for all else. -/
structure Dialect.Tame (d : Dialect) : Prop where
  quoteName : ∃ mark, isQuote mark = true ∧ d.quoteName = Text.quote mark
  quoteString : ∃ mark, isQuote mark = true ∧ d.quoteString = Text.quote mark
  boolText (value : Bool) : isWord (d.boolText value) = true
  nullText : isWord d.nullText = true
  rename {name native : String} : d.rename name = some native → isWord native = true

namespace Token
variable {d : Dialect}

theorem next?_of_plain {token : Token} {place : Place} (unsigned : token.isSigned = false)
    (starless : token.isStar = false) (plain : token.place = .plain) :
    next? place token = some .plain := by
  cases place <;> simp [next?, clashes, unsigned, starless, plain]

theorem next?_of_signed {token : Token} {place : Place} (signed : token.isSigned = true)
    (starless : token.isStar = false) (plain : token.place = .plain) :
    next? place token = if place = .minus then none else some .plain := by
  cases place <;> simp [next?, clashes, signed, starless, plain]

theorem tame_of_closed {token : Token} (closed : Place.Closed (token.text d).toList)
    (unsigned : token.isSigned = false) (starless : token.isStar = false)
    (plain : token.place = .plain) : token.Tame d := by
  intro place outside
  rw [next?_of_plain unsigned starless plain]
  exact closed place outside

theorem tame_of_signed {token : Token} {text : List Char}
    (same : (token.text d).toList = '-' :: text) (closed : Place.Closed text)
    (signed : token.isSigned = true) (starless : token.isStar = false)
    (plain : token.place = .plain) : token.Tame d := by
  intro place outside
  rw [next?_of_signed signed starless plain, same]
  exact Place.read_signed closed outside

theorem tame_mark (m : Mark) : (Token.mark m).Tame d := by
  intro place outside
  show place.read m.text.toList = next? place (.mark m)
  cases place with
  | quoted mark => cases outside
  | plain => cases m <;> decide
  | minus => cases m <;> decide
  | slash => cases m <;> decide

theorem tame_word {token : Token} (word : isWord (token.text d) = true)
    (unsigned : token.isSigned = false) (starless : token.isStar = false)
    (plain : token.place = .plain) : token.Tame d :=
  tame_of_closed (Place.closed_of_isWord word) unsigned starless plain

theorem tame_space : Token.space.Tame d :=
  tame_word (show isWord " " = true by decide) rfl rfl rfl

theorem tame_newline : Token.newline.Tame d :=
  tame_word (show isWord "\n" = true by decide) rfl rfl rfl

theorem tame_indent {depth : Nat} (deep : depth ≠ 0) : (Token.indent depth).Tame d := by
  refine tame_of_closed ?_ rfl rfl rfl
  rw [text, String.toList_ofList]
  refine Place.closed_of_inert (fun empty => ?_) fun c member => ?_
  · have none := List.replicate_eq_nil_iff ' ' |>.mp empty
    omega
  · rw [List.eq_of_mem_replicate member]
    rfl

theorem closed_digits (n : Nat) : Place.Closed (Nat.toDigits 10 n) :=
  Place.closed_of_inert Nat.toDigits_ne_nil (inert_toDigits n)

theorem tame_int (n : Int) : (Token.int n).Tame d := by
  cases n with
  | ofNat m =>
    refine tame_of_closed ?_ (by simp [isSigned]) rfl rfl
    show Place.Closed (Nat.repr m).toList
    rw [Number.toList_repr]
    exact closed_digits m
  | negSucc m =>
    have shown : ((Token.int (.negSucc m)).text d).toList = '-' :: Nat.toDigits 10 (m + 1) :=
      Number.toList_toString_negSucc m
    exact tame_of_signed shown (closed_digits _) (by simp [isSigned]) rfl rfl

theorem closed_withPoint {digits : List Char} (nonempty : digits ≠ [])
    (inert : ∀ c ∈ digits, isInert c = true) (exponent : Int) :
    Place.Closed (Number.Layout.literal.withPoint digits exponent) := by
  have zeros : ∀ n, ∀ c ∈ Number.zeros n, isInert c = true := by
    intro n c member
    rw [List.eq_of_mem_replicate member]
    rfl
  have point : isInert '.' = true := rfl
  have zero : isInert '0' = true := rfl
  refine Place.closed_of_inert ?_ ?_
  · unfold Number.Layout.withPoint
    dsimp only
    split
    · simp [nonempty]
    · split <;> simp
  · unfold Number.Layout.withPoint
    dsimp only
    split
    · intro c member
      simp only [Number.Layout.literal, if_true, List.mem_append, List.mem_cons,
        List.not_mem_nil, or_false] at member
      rcases member with (member | member) | rfl | rfl
      · exact inert c member
      · exact zeros _ c member
      · exact point
      · exact zero
    · split
      · intro c member
        rcases List.mem_append.mp member with member | member
        · exact inert c (List.mem_of_mem_take member)
        · rcases List.mem_cons.mp member with rfl | member
          · exact point
          · exact inert c (List.mem_of_mem_drop member)
      · intro c member
        simp only [List.mem_cons, List.mem_append] at member
        rcases member with rfl | rfl | member | member
        · exact zero
        · exact point
        · exact zeros _ c member
        · exact inert c member

theorem read_int (n : Int) : Place.plain.read (toString n).toList = some .plain :=
  tame_int (d := .postgres) n .plain rfl

theorem closed_withExponent {digits : List Char} (nonempty : digits ≠ [])
    (inert : ∀ c ∈ digits, isInert c = true) (leading : Int) :
    Place.Closed (Number.withExponent digits leading) := by
  have exponent : Place.plain.read ('e' :: (toString leading).toList) = some .plain := by
    rw [Place.read_cons, Place.next?_of_isInert rfl rfl]
    exact read_int leading
  unfold Number.withExponent
  split
  · rename_i first next rest
    refine (Place.closed_of_inert (List.cons_ne_nil _ _) fun c member => ?_).append exponent
    rcases List.mem_cons.mp member with rfl | member
    · exact inert c List.mem_cons_self
    · rcases List.mem_cons.mp member with rfl | member
      · rfl
      · exact inert c (List.mem_cons_of_mem _ member)
  · exact (Place.closed_of_inert nonempty inert).append exponent

theorem closed_magnitude (decimal : Number.Decimal) :
    Place.Closed (Number.Layout.literal.magnitude decimal) := by
  unfold Number.Layout.magnitude
  dsimp only
  split
  · exact closed_withPoint Nat.toDigits_ne_nil (inert_toDigits _) _
  · exact closed_withExponent Nat.toDigits_ne_nil (inert_toDigits _) _

theorem text_finite (negative : Bool) (code : Fin Binary64.codes) : ∃ magnitude,
    Place.Closed magnitude ∧
      ((Token.float (.finite negative code)).text d).toList = Number.sign negative magnitude := by
  have zero : Place.Closed "0.0".toList := Place.closed_of_isWord (by decide)
  have shown : (Token.float (.finite negative code)).text d =
      Number.Layout.literal.write (.finite negative code) := rfl
  rw [shown, Number.Layout.write, String.toList_ofList]
  refine ⟨_, ?_, rfl⟩
  split
  · exact zero
  · exact closed_magnitude _

section
variable (tame : d.Tame)
include tame

theorem tame_float (x : Binary64) : (Token.float x).Tame d := by
  cases x with
  | nan => exact tame_of_closed (Place.closed_of_isWord tame.nullText) rfl rfl rfl
  | infinity negative => exact tame_of_closed (Place.closed_of_isWord tame.nullText) rfl rfl rfl
  | finite negative code =>
    obtain ⟨magnitude, closed, text⟩ := text_finite (d := d) negative code
    cases negative with
    | false => exact tame_of_closed (text ▸ closed) rfl rfl rfl
    | true => exact tame_of_signed text closed rfl rfl rfl

theorem tame_name (name : String) : (Token.name name).Tame d := by
  obtain ⟨mark, quote, same⟩ := tame.quoteName
  refine tame_of_closed ?_ rfl rfl rfl
  rw [text, same]
  exact Place.closed_quote quote name

theorem tame_string (value : String) : (Token.string value).Tame d := by
  obtain ⟨mark, quote, same⟩ := tame.quoteString
  refine tame_of_closed ?_ rfl rfl rfl
  rw [text, same]
  exact Place.closed_quote quote value

theorem tame_bool (value : Bool) : (Token.bool value).Tame d :=
  tame_word (tame.boolText value) rfl rfl rfl

theorem tame_null : Token.null.Tame d := tame_word tame.nullText rfl rfl rfl

theorem tame_function {name : String} (word : isWord name = true) :
    (Token.function name).Tame d := by
  refine tame_word ?_ rfl rfl rfl
  rw [text]
  cases native : d.rename name with
  | none => exact word
  | some other => exact tame.rename native

omit tame in
theorem tame_verbatim {word : String} (is : isWord word = true) : (Token.verbatim word).Tame d :=
  tame_word is rfl rfl rfl

end

end Token

theorem tame_dialect (database : Database) : database.dialect.Tame where
  quoteName := by
    cases database
    case mysql => exact ⟨'\x60', rfl, rfl⟩
    all_goals exact ⟨'"', rfl, rfl⟩
  quoteString := by cases database <;> exact ⟨'\'', rfl, rfl⟩
  boolText := by cases database <;> decide
  nullText := by cases database <;> decide
  rename := by
    intro name native found
    have each : ∀ {table : List (String × String)}, (∀ entry ∈ table, isWord entry.2 = true) →
        renameBy table name = some native → isWord native = true := by
      intro table words found
      obtain ⟨entry, listed, rfl⟩ := Option.map_eq_some_iff.mp found
      exact words entry (List.mem_of_find?_eq_some listed)
    cases database
    case clickhouse | h2 | mysql => exact each (by decide) found
    all_goals cases found

/-! ## Texts -/

namespace Place
variable {d : Dialect} {place : Place} {tokens : List Token}

/-- The place behind tokens, unless a comment opens between two of them. -/
def through (place : Place) (tokens : List Token) : Option Place := tokens.foldlM Token.next? place

@[simp] theorem through_nil : place.through [] = some place := rfl

theorem through_cons (token : Token) (tokens : List Token) :
    place.through (token :: tokens) = (Token.next? place token).bind (·.through tokens) := rfl

theorem through_append (first second : List Token) :
    place.through (first ++ second) = (place.through first).bind (·.through second) :=
  List.foldlM_append

theorem isOutside_place (token : Token) : token.place.isOutside = true := by
  unfold Token.place
  split <;> rfl

theorem read_spell (tame : ∀ token ∈ tokens, token.Tame d) (outside : place.isOutside = true) :
    place.read (spell d tokens).toList = place.through tokens := by
  induction tokens generalizing place with
  | nil => rfl
  | cons token rest ih =>
    obtain ⟨first, others⟩ := List.forall_mem_cons.mp tame
    have text : (spell d (token :: rest)).toList =
        (token.text d).toList ++ (spell d rest).toList := by
      rw [spell, List.map_cons, String.join_cons, String.toList_append, spell]
    rw [text, read_append, through_cons, first place outside, Token.next?]
    split
    · rfl
    · exact ih others (isOutside_place token)

theorem place_of_isEmpty {token : Token} (empty : (token.text d).isEmpty = true) :
    token.place = .plain := by
  unfold Token.place
  split
  · exact absurd empty (show ¬ "-".isEmpty = true by decide)
  · exact absurd empty (show ¬ "/".isEmpty = true by decide)
  · rfl

theorem next?_of_isBlank {token : Token} (blank : token.isBlank = true) :
    Token.next? place token = some .plain := by
  cases token with
  | space => exact Token.next?_of_plain rfl rfl rfl
  | newline => exact Token.next?_of_plain rfl rfl rfl
  | indent depth => exact Token.next?_of_plain rfl rfl rfl
  | _ => cases blank

theorem toList_join_cons (text : String) (rest : List String) :
    (String.join (text :: rest)).toList = text.toList ++ (String.join rest).toList := by
  rw [String.join_cons, String.toList_append]

-- The invariant is about what has been written, and the blanks behind it that are still due. A
-- blank leads out of a clash, and where it is left out there is none: nothing clashes at the
-- beginning or behind an opening parenthesis, and a closing one clashes with nothing.
theorem isNone_read_spellRest (tame : ∀ token ∈ tokens, token.Tame d)
    (outside : place.isOutside = true) {started afterParen : Bool} (blank : Bool)
    (apart : started = false ∨ afterParen = true → place = .plain) :
    (place.read (String.join (spellRest d started blank afterParen tokens)).toList).isNone =
      ((if blank then .plain else place).through tokens).isNone := by
  induction tokens generalizing place started blank afterParen with
  | nil => cases blank <;> rfl
  | cons token rest ih =>
    obtain ⟨first, others⟩ := List.forall_mem_cons.mp tame
    cases isBlank : token.isBlank with
    | true =>
      rw [spellRest, if_pos isBlank, through_cons, next?_of_isBlank isBlank, Option.bind_some]
      exact ih others outside true apart
    | false =>
      rw [spellRest, if_neg (by simp [isBlank])]
      dsimp only
      generalize behind : spellRest d (started || !(token.text d).isEmpty) false
        (token == .mark .leftParen) rest = pieces
      -- What follows is read from the place behind the token.
      have due : ∀ {start : Place}, start.isOutside = true →
          (start.read (String.join (token.text d :: pieces)).toList).isNone =
            (start.through (token :: rest)).isNone := by
        intro start outside
        rw [toList_join_cons, read_append, through_cons, first start outside, Token.next?]
        split
        · rfl
        · rw [Option.bind_some, Option.bind_some, ← behind]
          refine ih others (isOutside_place token) false fun due => ?_
          rcases due with unstarted | paren
          · exact place_of_isEmpty (by simpa using (Bool.or_eq_false_iff.mp unstarted).2)
          · rw [beq_iff_eq.mp paren]
            rfl
      split
      · rename_i spaced
        rw [(Bool.and_eq_true_iff.mp spaced).1, if_pos rfl, toList_join_cons, read_append,
          closed_of_isWord (show isWord " " = true by decide) place outside]
        exact due rfl
      · rename_i unspaced
        cases blank with
        | false => exact due outside
        | true =>
          rw [if_pos rfl]
          by_cases plain : place = .plain
          · rw [plain]
            exact due rfl
          · have close : token = .mark .rightParen := by
              cases started with
              | false => exact absurd (apart (.inl rfl)) plain
              | true =>
                cases afterParen with
                | true => exact absurd (apart (.inr rfl)) plain
                | false => simpa [spaceBefore] using unspaced
            rw [due outside, through_cons, through_cons, close,
              Token.next?_of_plain rfl rfl rfl, Token.next?_of_plain rfl rfl rfl]

theorem opensComment_spell (tame : ∀ token ∈ tokens, token.Tame d) :
    opensComment (spell d tokens) = (Place.plain.through tokens).isNone := by
  rw [opensComment, read_spell tame rfl]

theorem opensComment_spellCompact (tame : ∀ token ∈ tokens, token.Tame d) :
    opensComment (spellCompact d tokens) = (Place.plain.through tokens).isNone :=
  isNone_read_spellRest tame rfl false fun _ => rfl

end Place

end Rollup.Sql
