import Rollup.Proofs.Expr.Respelling

/-! Where the lexemes of a text stand.

A lexeme is split off with nothing lost: what it is written with and what is left are the text. So
blanks and lexemes take turns from the first character of a text to the last, and each lexeme stands
between two places of the text. A number takes as much of the text as any number could, and the
unit behind it as much as any unit.
-/

set_option autoImplicit false

namespace Rollup

theorem append_eq_append_cons {α : Type} {first second before after : List α} {x : α}
    (same : first ++ second = before ++ x :: after) :
    (∃ inner, before = first ++ inner ∧ second = inner ++ x :: after) ∨
      ∃ inner, first = before ++ x :: inner := by
  rcases List.append_eq_append_iff.mp same with ⟨inner, rfl, split_⟩ | ⟨inner, rfl, split_⟩
  · exact .inl ⟨inner, rfl, split_⟩
  · cases inner with
    | nil => exact .inl ⟨[], by simp, split_.symm⟩
    | cons y inner =>
      obtain ⟨rfl, -⟩ := List.cons.inj split_
      exact .inr ⟨inner, rfl⟩

/-! ## Offsets -/

namespace Text

theorem byteLength_eq_utf8ByteSize (text : List Char) :
    byteLength text = (String.ofList text).utf8ByteSize := by
  induction text with
  | nil => rfl
  | cons c rest ih =>
    rw [byteLength, ih, ← List.singleton_append, String.ofList_append, String.utf8ByteSize_append,
      ← String.singleton_eq_ofList, String.utf8ByteSize_singleton]

theorem isValid_byteLength {text : String} {before after : List Char}
    (split : text.toList = before ++ after) :
    (⟨byteLength before⟩ : String.Pos.Raw).IsValid text := by
  refine String.Pos.Raw.isValid_iff_exists_append.mpr
    ⟨String.ofList before, String.ofList after, ?_, ?_⟩
  · rw [← String.ofList_append, ← split, String.ofList_toList]
  · exact congrArg String.Pos.Raw.mk (byteLength_eq_utf8ByteSize before)

end Text

/-! ## The longest text of a kind -/

/-- A text begins with a text of a kind, and with none that is longer. -/
structure IsLongest (Is : List Char → Prop) (taken text : List Char) : Prop where
  initial : taken <+: text
  is : Is taken
  longest : ∀ other, other <+: text → Is other → other <+: taken

/-- Digits, a point with digits or none, and an exponent with digits or none. -/
inductive Number.IsNumber : List Char → Prop
  | mk {whole fraction power : List Char} : IsDigits whole → IsFraction fraction →
    Lexeme.IsPower power → IsNumber (whole ++ (fraction ++ power))

namespace Lexeme

open Number

variable {text rest : List Char}

/-! ## Nothing is lost -/

theorem append_splitFraction (text : List Char) :
    (splitFraction text).1 ++ (splitFraction text).2 = text := by
  unfold splitFraction
  split
  · split
    · rfl
    · exact congrArg ('.' :: ·) List.takeWhile_append_dropWhile
  · rfl

theorem append_splitSign (text : List Char) : (splitSign text).1 ++ (splitSign text).2 = text := by
  unfold splitSign
  split <;> rfl

theorem append_splitExponent (text : List Char) :
    (splitExponent text).1 ++ (splitExponent text).2 = text := by
  unfold splitExponent
  split
  · rfl
  · rename_i c tail
    split_ifs
    · dsimp only
      split
      · rfl
      · have digits : (splitSign tail).2.takeWhile isDigit ++ (splitSign tail).2.dropWhile isDigit =
            (splitSign tail).2 := List.takeWhile_append_dropWhile
        rw [List.cons_append, List.append_assoc, digits, append_splitSign]
    · rfl

theorem append_splitNumber (text : List Char) :
    (splitNumber text).1 ++ (splitNumber text).2 = text := by
  have digits : text.takeWhile isDigit ++ text.dropWhile isDigit = text :=
    List.takeWhile_append_dropWhile
  rw [splitNumber]
  dsimp only
  rw [List.append_assoc, append_splitExponent, List.append_assoc, append_splitFraction, digits]

theorem append_splitUnit (text : List Char) : (splitUnit text).1 ++ (splitUnit text).2 = text := by
  unfold splitUnit
  split
  · rfl
  · exact List.takeWhile_append_dropWhile

theorem exists_scanNumber (text : List Char) : ∃ number unit rest,
    text = number ++ (unit ++ rest) ∧ number = (splitNumber text).1 ∧
      unit = (splitUnit (unit ++ rest)).1 ∧
      scanNumber text = ⟨if unit = [] then .number (String.ofList number) else
        .measure (String.ofList (number ++ unit)), number ++ unit, rest⟩ := by
  obtain ⟨number, behind, found⟩ : ∃ number behind, splitNumber text = (number, behind) :=
    ⟨_, _, rfl⟩
  obtain ⟨unit, rest, measured⟩ : ∃ unit rest, splitUnit behind = (unit, rest) := ⟨_, _, rfl⟩
  have whole := append_splitNumber text
  have parts := append_splitUnit behind
  rw [found] at whole
  rw [measured] at parts
  dsimp only at whole parts
  refine ⟨number, unit, rest, ?_, ?_, ?_, ?_⟩
  · rw [parts, whole]
  · rw [found]
  · rw [parts, measured]
  · unfold scanNumber
    rw [found]
    dsimp only
    rw [measured]
    cases unit with
    | nil => simp
    | cons c more => rfl

theorem append_scanNumber (text : List Char) :
    (scanNumber text).written ++ (scanNumber text).rest = text := by
  obtain ⟨number, unit, rest, whole, -, -, scanned⟩ := exists_scanNumber text
  rw [scanned, whole]
  exact List.append_assoc _ _ _

theorem append_splitQuoted {mark : Char} {body : List Char}
    (found : Text.splitQuoted mark text = some (body, rest)) : text = body ++ mark :: rest := by
  fun_induction Text.splitQuoted mark text generalizing body rest with
  | case1 => cases found
  | case2 =>
    cases found
    rfl
  | case3 => cases found
  | case4 tail ih =>
    obtain ⟨⟨inside, behind⟩, read, same⟩ := Option.map_eq_some_iff.mp found
    cases same
    rw [ih read]
    rfl
  | case5 =>
    cases found
    rfl
  | case6 c d tail other ih =>
    obtain ⟨⟨inside, behind⟩, read, same⟩ := Option.map_eq_some_iff.mp found
    cases same
    rw [ih read]
    rfl

section
variable {scanned : Scanned}

theorem append_of_scanQuoted {mark : Char} {lexeme : String → Lexeme}
    (ok : scanQuoted mark lexeme text = .ok scanned) :
    scanned.written ++ scanned.rest = mark :: text := by
  unfold scanQuoted at ok
  split at ok
  · cases ok
  · rename_i found
    cases ok
    simp [append_splitQuoted found]

theorem append_of_scanPlaceholder (ok : scanPlaceholder text = .ok scanned) :
    scanned.written ++ scanned.rest = '\x7b' :: text := by
  unfold scanPlaceholder at ok
  dsimp only at ok
  split at ok
  · cases ok
  · rename_i c rest found
    have closing : c = '\x7d' := by
      have stop := List.head?_dropWhile_not (· != '\x7d') text
      rw [found] at stop
      simpa using stop
    split at ok
    · cases ok
    · cases ok
      have whole : text.takeWhile (· != '\x7d') ++ text.dropWhile (· != '\x7d') = text :=
        List.takeWhile_append_dropWhile
      rw [found, closing] at whole
      simp [whole]

theorem append_of_scanSymbol? {sign : Symbol} {written : List Char}
    (found : scanSymbol? text = some (sign, written, rest)) : written ++ rest = text := by
  unfold scanSymbol? at found
  split at found <;> cases found <;> rfl

theorem append_of_scan (ok : scan text = .ok scanned) :
    scanned.written ++ scanned.rest = text := by
  unfold scan at ok
  split at ok
  · cases ok
  rename_i c tail
  dsimp only at ok
  split_ifs at ok with digit starts string name brace
  · cases ok
    exact append_scanNumber (c :: tail)
  · cases ok
    exact List.takeWhile_append_dropWhile
  · rw [string]
    exact append_of_scanQuoted ok
  · rw [name]
    exact append_of_scanQuoted ok
  · rw [brace]
    exact append_of_scanPlaceholder ok
  · split at ok
    · rename_i found
      cases ok
      exact append_of_scanSymbol? found
    · cases ok

theorem written_ne_nil (ok : scan text = .ok scanned) : scanned.written ≠ [] := by
  intro none_
  have again := scan_again ok []
  rw [none_] at again
  exact absurd (isBlank_of_scan again) (by decide)

end

/-! ## Numbers take what they can -/

theorem isNumber_splitNumber {c : Char} (digit : isDigit c = true) (tail : List Char) :
    IsNumber (splitNumber (c :: tail)).1 := by
  have whole : IsDigits ((c :: tail).takeWhile isDigit) := by
    refine ⟨?_, fun _ member => List.mem_takeWhile_imp member⟩
    rw [List.takeWhile_cons, if_pos digit]
    exact List.cons_ne_nil _ _
  rw [splitNumber]
  dsimp only
  rw [List.append_assoc]
  exact .mk whole (isFraction_splitFraction _) (isPower_splitExponent _)

theorem prefix_splitExponent {power : List Char} (is : IsPower power) (rest : List Char) :
    power <+: (splitExponent (power ++ rest)).1 := by
  cases is with
  | none => exact List.nil_prefix
  | @some e sign digits opens signed is =>
    obtain ⟨c, more, rfl, digit⟩ := is.head
    have taken : (c :: (more ++ rest)).takeWhile isDigit = (c :: more) ++ rest.takeWhile isDigit :=
      List.takeWhile_append_of_pos is.each
    rw [List.cons_append, List.append_assoc, List.cons_append, splitExponent, if_pos opens,
      splitSign_append signed digit]
    dsimp only
    rw [taken]
    exact ⟨rest.takeWhile isDigit, by simp⟩

theorem prefix_splitFraction {digits : List Char} (is : IsDigits digits) (rest : List Char) :
    '.' :: digits <+: (splitFraction ('.' :: digits ++ rest)).1 := by
  have taken : (digits ++ rest).takeWhile isDigit = digits ++ rest.takeWhile isDigit :=
    List.takeWhile_append_of_pos is.each
  obtain ⟨c, tail, rfl, -⟩ := is.head
  rw [List.cons_append, splitFraction, taken]
  exact ⟨rest.takeWhile isDigit, rfl⟩

theorem splitNumber_whole {whole : List Char} (digits : IsDigits whole)
    (stops : Stops isDigit rest) :
    (splitNumber (whole ++ rest)).1 =
      whole ++ ((splitFraction rest).1 ++ (splitExponent (splitFraction rest).2).1) := by
  rw [splitNumber, takeWhile_append_of_stops digits.each stops,
    dropWhile_append_of_stops digits.each stops]
  exact List.append_assoc _ _ _

theorem prefix_splitNumber {number : List Char} (is : IsNumber number) (rest : List Char) :
    number <+: (splitNumber (number ++ rest)).1 := by
  obtain @⟨whole, fraction, power, digits, point, exponent⟩ := is
  simp only [List.append_assoc]
  cases exponent with
  | none =>
    -- What follows may go on with the last part, so more can be taken than the number.
    cases point with
    | none =>
      rw [List.append_nil, List.append_nil, List.nil_append, List.nil_append, splitNumber]
      dsimp only
      rw [List.takeWhile_append_of_pos digits.each, List.append_assoc, List.append_assoc]
      exact List.prefix_append _ _
    | @some more is =>
      have stops : Stops isDigit ('.' :: more ++ rest) := stops_cons rfl
      rw [List.append_nil, List.nil_append, splitNumber_whole digits stops]
      refine (List.prefix_append_right_inj whole).mpr ((prefix_splitFraction is rest).trans ?_)
      exact List.prefix_append _ _
  | @some e sign more opens signed is =>
    -- The letter ends what is in front of it, and only the exponent can go on.
    obtain ⟨digit, dot⟩ := stops_exponent opens (sign ++ more ++ rest)
    have stops : Stops isDigit (fraction ++ (e :: (sign ++ more) ++ rest)) := by
      cases point with
      | none => exact digit
      | some _ => exact stops_cons rfl
    have found : splitFraction (fraction ++ (e :: (sign ++ more) ++ rest)) =
        (fraction, e :: (sign ++ more) ++ rest) := splitFraction_append point digit dot
    rw [splitNumber_whole digits stops, found]
    refine (List.prefix_append_right_inj whole).mpr ((List.prefix_append_right_inj fraction).mpr ?_)
    exact prefix_splitExponent (.some opens signed is) rest

theorem isLongest_splitNumber {c : Char} (digit : isDigit c = true) (tail : List Char) :
    IsLongest IsNumber (splitNumber (c :: tail)).1 (c :: tail) where
  initial := ⟨_, append_splitNumber (c :: tail)⟩
  is := isNumber_splitNumber digit tail
  longest := by
    rintro other ⟨rest, same⟩ is
    exact same ▸ prefix_splitNumber is rest

theorem isLongest_splitUnit (text : List Char) : IsLongest IsUnit (splitUnit text).1 text where
  initial := ⟨_, append_splitUnit text⟩
  is := isUnit_splitUnit text
  longest := by
    rintro other ⟨rest, rfl⟩ is
    cases is with
    | percent => exact List.prefix_rfl
    | letters each =>
      cases other with
      | nil => exact List.nil_prefix
      | cons c more =>
        unfold splitUnit
        split
        · rename_i same
          cases same
          exact absurd (each '%' List.mem_cons_self) (by decide)
        · rw [List.takeWhile_append_of_pos each]
          exact List.prefix_append _ _

/-- A lexeme that begins with a digit is the longest number that stands there, with the longest unit
that stands behind it. -/
def TakesNumber (lexeme : Lexeme) (written after : List Char) : Prop :=
  ∀ c ∈ written.head?, isDigit c = true → ∃ number unit, written = number ++ unit ∧
    IsLongest IsNumber number (written ++ after) ∧ IsLongest IsUnit unit (unit ++ after) ∧
    lexeme = if unit = [] then .number (String.ofList number) else .measure (String.ofList written)

theorem takesNumber_scanNumber {c : Char} (digit : isDigit c = true) (tail : List Char) :
    (scanNumber (c :: tail)).lexeme.TakesNumber (scanNumber (c :: tail)).written
      (scanNumber (c :: tail)).rest := by
  intro _ _ _
  obtain ⟨number, unit, rest, whole, found, measured, scanned⟩ := exists_scanNumber (c :: tail)
  have longest := isLongest_splitNumber digit tail
  have unit_ := isLongest_splitUnit (unit ++ rest)
  rw [← found, whole, ← List.append_assoc] at longest
  rw [← measured] at unit_
  rw [scanned]
  exact ⟨number, unit, rfl, longest, unit_, rfl⟩

theorem takesNumber_of_scan {scanned : Scanned} (ok : scan text = .ok scanned) :
    scanned.lexeme.TakesNumber scanned.written scanned.rest := by
  intro c first digit
  have whole := append_of_scan ok
  obtain ⟨tail, begins⟩ := List.head?_eq_some_iff.mp first
  obtain rfl : c :: (tail ++ scanned.rest) = text := by rw [← whole, begins, List.cons_append]
  rw [scan_of_digit digit, Except.ok.injEq] at ok
  have takes := takesNumber_scanNumber digit (tail ++ scanned.rest)
  rw [ok] at takes
  exact takes c first digit

/-! ## Blanks and lexemes -/

/-- The text behind an offset is blanks and lexemes in turns, each lexeme standing where it says. -/
inductive Tiled : Nat → List Char → List (Located Lexeme) → Prop
  | blanks {offset : Nat} {text : List Char} (each : ∀ c ∈ text, Text.isBlank c = true) :
      Tiled offset text []
  | lexeme {offset start stop : Nat} {blanks : List Char} {scanned : Scanned}
      {lexemes : List (Located Lexeme)} (each : ∀ c ∈ blanks, Text.isBlank c = true)
      (ok : scan (scanned.written ++ scanned.rest) = .ok scanned)
      (starts : start = offset + Text.byteLength blanks)
      (stops : stop = start + Text.byteLength scanned.written)
      (tiled : Tiled stop scanned.rest lexemes) :
      Tiled offset (blanks ++ (scanned.written ++ scanned.rest))
        (⟨start, stop, scanned.lexeme⟩ :: lexemes)

/-- Each lexeme takes a character or more off the text, so the fuel does not run out. -/
theorem tiled_of_allFrom {fuel offset : Nat} {lexemes : List (Located Lexeme)}
    (enough : text.length < fuel) (ok : allFrom fuel offset text = .ok lexemes) :
    Tiled offset text lexemes := by
  induction fuel generalizing offset text lexemes with
  | zero => cases enough
  | succ fuel ih =>
    have blank : ∀ c ∈ text.takeWhile Text.isBlank, Text.isBlank c = true :=
      fun _ member => List.mem_takeWhile_imp member
    have whole : text.takeWhile Text.isBlank ++ text.dropWhile Text.isBlank = text :=
      List.takeWhile_append_dropWhile
    rw [allFrom] at ok
    dsimp only at ok
    split at ok
    · rename_i none_
      cases ok
      rw [none_, List.append_nil] at whole
      exact .blanks (whole ▸ blank)
    · rename_i c tail found
      split at ok
      · cases ok
      · rename_i scanned first
        obtain ⟨lexemes, rest, rfl⟩ := map_eq_ok.mp ok
        have split_ := append_of_scan first
        rw [found, ← split_] at whole
        rw [← split_] at first
        have size := congrArg List.length whole
        have some_ := List.length_pos_of_ne_nil (written_ne_nil first)
        simp only [List.length_append] at size
        have shorter : scanned.rest.length < fuel := by omega
        have tiled := Tiled.lexeme blank first rfl rfl (ih shorter rest)
        rwa [whole] at tiled

section
variable {offset : Nat} {lexemes : List (Located Lexeme)}

theorem Tiled.starts_from (tiled : Tiled offset text lexemes) :
    ∀ lexeme ∈ lexemes, offset ≤ lexeme.start := by
  induction tiled with
  | blanks => exact fun _ member => nomatch member
  | lexeme _ _ starts stops _ ih =>
    have first := starts ▸ Nat.le_add_right _ _
    refine List.forall_mem_cons.mpr ⟨first, fun lexeme member => ?_⟩
    exact first.trans ((stops ▸ Nat.le_add_right _ _).trans (ih lexeme member))

theorem Tiled.in_order (tiled : Tiled offset text lexemes) :
    lexemes.Pairwise fun first second => first.stop ≤ second.start := by
  induction tiled with
  | blanks => exact .nil
  | lexeme _ _ _ _ behind ih => exact .cons behind.starts_from ih

theorem Tiled.stands (tiled : Tiled offset text lexemes) :
    ∀ lexeme ∈ lexemes, ∃ before scanned, text = before ++ (scanned.written ++ scanned.rest) ∧
      scan (scanned.written ++ scanned.rest) = .ok scanned ∧
      lexeme.start = offset + Text.byteLength before ∧
      lexeme.stop = lexeme.start + Text.byteLength scanned.written ∧
      lexeme.value = scanned.lexeme := by
  induction tiled with
  | blanks => exact fun _ member => nomatch member
  | @lexeme offset start stop blanks scanned _ _ ok starts stops _ ih =>
    refine List.forall_mem_cons.mpr ⟨⟨blanks, scanned, rfl, ok, starts, stops, rfl⟩, ?_⟩
    intro lexeme member
    obtain ⟨before, later, split_, scans, begins, ends, value⟩ := ih lexeme member
    refine ⟨blanks ++ (scanned.written ++ before), later, ?_, scans, ?_, ends, value⟩
    · simp only [split_, List.append_assoc]
    · simp only [Text.byteLength_append]
      omega

theorem Tiled.blank_outside (tiled : Tiled offset text lexemes) {before after : List Char}
    {c : Char} (split_ : text = before ++ c :: after)
    (outside : ∀ lexeme ∈ lexemes, offset + Text.byteLength before < lexeme.start ∨
      lexeme.stop ≤ offset + Text.byteLength before) : Text.isBlank c = true := by
  induction tiled generalizing before with
  | blanks each => exact each c (split_ ▸ List.mem_append_right before List.mem_cons_self)
  | @lexeme offset start stop blanks scanned lexemes each ok starts stops tiled ih =>
    obtain ⟨here, later⟩ := List.forall_mem_cons.mp outside
    rcases append_eq_append_cons split_ with ⟨inner, rfl, within⟩ | ⟨inner, rfl⟩
    · rw [Text.byteLength_append] at here later
      rcases append_eq_append_cons within with ⟨more, rfl, behind⟩ | ⟨more, written⟩
      · rw [Text.byteLength_append] at later
        refine ih behind fun lexeme member => ?_
        have away := later lexeme member
        omega
      · -- A character of the lexeme is not outside of it.
        have size := congrArg Text.byteLength written
        have some_ := Text.byteLength_pos (List.cons_ne_nil c more)
        rw [Text.byteLength_append] at size
        simp only at here
        omega
    · exact each c (List.mem_append_right before List.mem_cons_self)

end

/-! ## A whole text -/

/-- The places of lexemes in a text: they are one behind the other, between characters, and all that
is outside of them is blank. -/
structure Covers (text : String) (lexemes : List (Located Lexeme)) : Prop where
  in_order : lexemes.Pairwise fun first second => first.stop ≤ second.start
  nonempty : ∀ lexeme ∈ lexemes, lexeme.start < lexeme.stop
  valid : ∀ lexeme ∈ lexemes, (⟨lexeme.start⟩ : String.Pos.Raw).IsValid text ∧
    (⟨lexeme.stop⟩ : String.Pos.Raw).IsValid text
  written : ∀ lexeme ∈ lexemes, ∃ before written after,
    text.toList = before ++ (written ++ after) ∧ lexeme.start = Text.byteLength before ∧
      lexeme.stop = Text.byteLength (before ++ written) ∧ lexeme.value.TakesNumber written after
  outside : ∀ before c after, text.toList = before ++ c :: after →
    (∀ lexeme ∈ lexemes, Text.byteLength before < lexeme.start ∨
      lexeme.stop ≤ Text.byteLength before) → Text.isBlank c = true

/-- The lexemes of a text cover it but for blanks. -/
theorem covers_all {text : String} {lexemes : List (Located Lexeme)}
    (ok : all text.toList = .ok lexemes) : Covers text lexemes := by
  have tiled := tiled_of_allFrom (Nat.lt_succ_self _) ok
  have stands : ∀ lexeme ∈ lexemes, ∃ before written after,
      text.toList = before ++ (written ++ after) ∧ written ≠ [] ∧
      lexeme.start = Text.byteLength before ∧ lexeme.stop = Text.byteLength (before ++ written) ∧
      lexeme.value.TakesNumber written after := by
    intro lexeme member
    obtain ⟨before, scanned, split_, scans, starts, stops, value⟩ := tiled.stands lexeme member
    rw [Nat.zero_add] at starts
    refine ⟨before, scanned.written, scanned.rest, split_, written_ne_nil scans, starts, ?_, ?_⟩
    · rw [stops, starts, Text.byteLength_append]
    · exact value ▸ takesNumber_of_scan scans
  refine ⟨tiled.in_order, fun lexeme member => ?_, fun lexeme member => ?_,
    fun lexeme member => ?_, fun before c after split_ away => ?_⟩
  · obtain ⟨before, written, after, -, some_, starts, stops, -⟩ := stands lexeme member
    rw [starts, stops, Text.byteLength_append]
    exact Nat.lt_add_of_pos_right (Text.byteLength_pos some_)
  · obtain ⟨before, written, after, split_, -, starts, stops, -⟩ := stands lexeme member
    have ends : text.toList = before ++ written ++ after := by rw [split_, List.append_assoc]
    rw [starts, stops]
    exact ⟨Text.isValid_byteLength split_, Text.isValid_byteLength ends⟩
  · obtain ⟨before, written, after, split_, -, rest⟩ := stands lexeme member
    exact ⟨before, written, after, split_, rest⟩
  · refine tiled.blank_outside split_ fun lexeme member => ?_
    rw [Nat.zero_add]
    exact away lexeme member

/-- A number with an exponent and a unit, and a text in quotes that is longer in bytes than in
characters. -/
theorem covers_all_delay :
    all "12.5e3ms %'é'".toList = .ok [⟨0, 8, .measure "12.5e3ms"⟩, ⟨9, 10, .symbol .percent⟩,
        ⟨10, 14, .string "é"⟩] ∧
      Covers "12.5e3ms %'é'" [⟨0, 8, .measure "12.5e3ms"⟩, ⟨9, 10, .symbol .percent⟩,
        ⟨10, 14, .string "é"⟩] := by
  have ok : all "12.5e3ms %'é'".toList = .ok [⟨0, 8, .measure "12.5e3ms"⟩,
      ⟨9, 10, .symbol .percent⟩, ⟨10, 14, .string "é"⟩] := rfl
  exact ⟨ok, covers_all ok⟩

end Lexeme

end Rollup
