import Rollup.Expr.Lexeme
import Rollup.Number.Layout
import Rollup.Proofs.Number.Digits

/-! The texts of numbers.

A number without a sign is written as digits, which a point with digits and an exponent may follow.
A reader that takes as much of a number as it can stops behind such a text, unless what is behind it
goes on as a number does.
-/

set_option autoImplicit false

namespace Rollup.Number

/-! ## Numerals -/

structure IsDigits (text : List Char) : Prop where
  nonempty : text ≠ []
  each : ∀ c ∈ text, isDigit c = true

inductive IsFraction : List Char → Prop
  | none : IsFraction []
  | some {digits : List Char} : IsDigits digits → IsFraction ('.' :: digits)

inductive IsExponent : List Char → Prop
  | none : IsExponent []
  | positive {digits : List Char} : IsDigits digits → IsExponent ('e' :: digits)
  | negative {digits : List Char} : IsDigits digits → IsExponent ('e' :: '-' :: digits)

inductive IsNumeral : List Char → Prop
  | mk {whole fraction exponent : List Char} : IsDigits whole → IsFraction fraction →
    IsExponent exponent → IsNumeral (whole ++ (fraction ++ exponent))

def continues (c : Char) : Bool := isDigit c || c == '.' || c == 'e' || c == 'E'

section
variable {text rest digits : List Char}

theorem IsDigits.isNumeral (digits : IsDigits text) : IsNumeral text := by
  simpa using IsNumeral.mk digits .none .none

theorem isDigits_toDigits (n : Nat) : IsDigits (Nat.toDigits 10 n) :=
  ⟨Nat.toDigits_ne_nil, fun _ => isDigit_of_mem_toDigits⟩

theorem isDigit_of_mem_zeros {n : Nat} {c : Char} (member : c ∈ zeros n) : isDigit c = true := by
  rw [List.eq_of_mem_replicate member]
  rfl

theorem isDigits_zero : IsDigits ['0'] :=
  ⟨List.cons_ne_nil _ _, List.forall_mem_singleton.mpr rfl⟩

theorem IsDigits.append (digits : IsDigits text) (more : ∀ c ∈ rest, isDigit c = true) :
    IsDigits (text ++ rest) :=
  ⟨List.append_ne_nil_of_left_ne_nil digits.nonempty _, fun c member =>
    (List.mem_append.mp member).elim (digits.each c) (more c)⟩

theorem IsDigits.head (digits : IsDigits text) : ∃ c tail, text = c :: tail ∧ isDigit c = true := by
  obtain ⟨c, tail, rfl⟩ := List.exists_cons_of_ne_nil digits.nonempty
  exact ⟨c, tail, rfl, digits.each c List.mem_cons_self⟩

theorem IsNumeral.head (numeral : IsNumeral text) :
    ∃ c tail, text = c :: tail ∧ isDigit c = true := by
  obtain ⟨digits, -, -⟩ := numeral
  obtain ⟨c, tail, rfl, digit⟩ := digits.head
  exact ⟨c, _, rfl, digit⟩

theorem IsNumeral.visible (numeral : IsNumeral text) : ∀ c ∈ text, Text.isBlank c = false := by
  have shown : ∀ {digits : List Char}, IsDigits digits → ∀ c ∈ digits, Text.isBlank c = false :=
    fun digits c member => isBlank_of_isDigit (digits.each c member)
  obtain @⟨whole, fraction, exponent, digits, point, power⟩ := numeral
  simp only [List.forall_mem_append]
  refine ⟨shown digits, ?_, ?_⟩
  · cases point with
    | none => simp
    | some digits => exact List.forall_mem_cons.mpr ⟨rfl, shown digits⟩
  · cases power with
    | none => simp
    | positive digits => exact List.forall_mem_cons.mpr ⟨rfl, shown digits⟩
    | negative digits =>
      exact List.forall_mem_cons.mpr ⟨rfl, List.forall_mem_cons.mpr ⟨rfl, shown digits⟩⟩

/-! ## Integers -/

theorem readNat?_eq_some {n : Nat} :
    readNat? text = some n ↔ IsDigits text ∧ ofDigits text = n := by
  have digits : IsDigits text ↔ ¬(text.isEmpty || !text.all isDigit) = true := by
    simp only [Bool.or_eq_true, Bool.not_eq_true', not_or, List.isEmpty_iff, Bool.not_eq_false,
      List.all_eq_true]
    exact ⟨fun is => ⟨is.nonempty, is.each⟩, fun ⟨nonempty, each⟩ => ⟨nonempty, each⟩⟩
  rw [readNat?, digits]
  split <;> simp [*]

theorem readNat?_cast_eq_some {n : Int} : (readNat? text >>= fun m => pure (m : Int)) = some n ↔
    IsDigits text ∧ (ofDigits text : Int) = n := by
  simp only [Option.bind_eq_bind, Option.bind_eq_some_iff, readNat?_eq_some, Option.pure_def,
    Option.some.injEq]
  exact ⟨fun ⟨_, ⟨digits, value⟩, same⟩ => ⟨digits, value ▸ same⟩,
    fun ⟨digits, same⟩ => ⟨_, ⟨digits, rfl⟩, same⟩⟩

/-- Digits with an optional sign, and the integer that they spell. -/
inductive Spells : List Char → Int → Prop
  | unsigned {digits : List Char} : IsDigits digits → Spells digits (ofDigits digits)
  | positive {digits : List Char} : IsDigits digits → Spells ('+' :: digits) (ofDigits digits)
  | negative {digits : List Char} : IsDigits digits → Spells ('-' :: digits) (-ofDigits digits)

theorem readInt?_eq_some {n : Int} : readInt? text = some n ↔ Spells text n := by
  constructor
  · intro read
    unfold readInt? at read
    split at read <;> obtain ⟨m, found, rfl⟩ := Option.map_eq_some_iff.mp read <;>
      obtain ⟨digits, rfl⟩ := readNat?_cast_eq_some.mp found
    · exact .negative digits
    · exact .positive digits
    · exact .unsigned digits
  · intro spells
    cases spells with
    | unsigned digits =>
      rw [readInt?_of_digits digits.each, readNat?_eq_some.mpr ⟨digits, rfl⟩]
      rfl
    | positive digits | negative digits =>
      rw [readInt?, readNat?_eq_some.mpr ⟨digits, rfl⟩]
      rfl

/-! ## Layouts -/

theorem isExponent_toString (n : Int) : IsExponent ('e' :: (toString n).toList) := by
  cases n with
  | ofNat n =>
    refine .positive ?_
    show IsDigits (Nat.repr n).toList
    rw [toList_repr]
    exact isDigits_toDigits n
  | negSucc n =>
    rw [toList_toString_negSucc]
    exact .negative (isDigits_toDigits _)

theorem isNumeral_withPoint (layout : Layout) (digits : IsDigits text) (exponent : Int) :
    IsNumeral (layout.withPoint text exponent) := by
  unfold Layout.withPoint
  dsimp only
  split
  · have whole := digits.append fun c => isDigit_of_mem_zeros (n := exponent.toNat)
    cases layout.pointed with
    | true => exact .mk whole (.some isDigits_zero) .none
    | false => simpa using whole.isNumeral
  · rename_i small
    split
    · rename_i inside
      have first : IsDigits (text.take (text.length + exponent).toNat) := by
        refine ⟨fun empty => ?_, fun c member => digits.each c (List.mem_of_mem_take member)⟩
        have length := congrArg List.length empty
        simp only [List.length_take, List.length_nil] at length
        omega
      have second : IsDigits (text.drop (text.length + exponent).toNat) := by
        refine ⟨fun empty => ?_, fun c member => digits.each c (List.mem_of_mem_drop member)⟩
        have length := congrArg List.length empty
        simp only [List.length_drop, List.length_nil] at length
        omega
      simpa using IsNumeral.mk first (.some second) .none
    · have second : IsDigits (zeros (-(text.length + exponent)).toNat ++ text) := by
        refine ⟨List.append_ne_nil_of_right_ne_nil _ digits.nonempty, fun c member => ?_⟩
        exact (List.mem_append.mp member).elim isDigit_of_mem_zeros (digits.each c)
      simpa using IsNumeral.mk isDigits_zero (.some second) .none

theorem isNumeral_withExponent (digits : IsDigits text) (leading : Int) :
    IsNumeral (withExponent text leading) := by
  unfold withExponent
  split
  · rename_i first next rest
    obtain ⟨one, more⟩ := List.forall_mem_cons.mp digits.each
    have whole : IsDigits [first] := ⟨by simp, by simpa using one⟩
    have fraction : IsDigits (next :: rest) := ⟨by simp, more⟩
    exact .mk whole (.some fraction) (isExponent_toString leading)
  · exact .mk digits .none (isExponent_toString leading)

theorem isNumeral_magnitude (layout : Layout) (d : Decimal) : IsNumeral (layout.magnitude d) := by
  unfold Layout.magnitude
  dsimp only
  split
  · exact isNumeral_withPoint layout (isDigits_toDigits _) _
  · exact isNumeral_withExponent (isDigits_toDigits _) _

theorem isNumeral_write (layout : Layout) (code : Fin Binary64.codes) :
    IsNumeral (layout.write (.finite false code)).toList := by
  rw [Layout.write, String.toList_ofList, sign, if_neg Bool.false_ne_true]
  split
  · split
    · exact .mk isDigits_zero (.some isDigits_zero) .none
    · exact isDigits_zero.isNumeral
  · exact isNumeral_magnitude layout _

theorem write_negative (layout : Layout) (code : Fin Binary64.codes) :
    (layout.write (.finite true code)).toList =
      '-' :: (layout.write (.finite false code)).toList := by
  simp [Layout.write, sign]

end

end Rollup.Number

namespace Rollup.Lexeme

open Number

variable {text rest : List Char}

/-! ## Splitting -/

theorem splitFraction_append (fraction : IsFraction text) (digit : Stops isDigit rest)
    (point : Stops (· == '.') rest) : splitFraction (text ++ rest) = (text, rest) := by
  cases fraction with
  | none =>
    rw [List.nil_append]
    unfold splitFraction
    split
    · exact absurd (point '.' rfl) (by decide)
    · rfl
  | @some digits is =>
    obtain ⟨c, tail, rfl, -⟩ := is.head
    rw [List.cons_append, splitFraction, takeWhile_append_of_stops is.each digit,
      dropWhile_append_of_stops is.each digit]

theorem splitSign_of_ne {c : Char} (positive : c ≠ '+') (negative : c ≠ '-') (tail : List Char) :
    splitSign (c :: tail) = ([], c :: tail) := by
  unfold splitSign
  split
  · rename_i same
    exact absurd (List.cons.inj same).1 positive
  · rename_i same
    exact absurd (List.cons.inj same).1 negative
  · rfl

theorem splitSign_of_digit {c : Char} (digit : isDigit c = true) (tail : List Char) :
    splitSign (c :: tail) = ([], c :: tail) := by
  apply splitSign_of_ne <;>
  · rintro rfl
    cases digit

def IsSign (sign : List Char) : Prop := sign = [] ∨ sign = ['+'] ∨ sign = ['-']

theorem splitSign_append {sign : List Char} (is : IsSign sign) {c : Char}
    (digit : isDigit c = true) (tail : List Char) :
    splitSign (sign ++ c :: tail) = (sign, c :: tail) := by
  rcases is with rfl | rfl | rfl
  · exact splitSign_of_digit digit tail
  · rfl
  · rfl

/-- An exponent as a text may have it, or nothing. -/
inductive IsPower : List Char → Prop
  | none : IsPower []
  | some {e : Char} {sign digits : List Char} (opens : (e == 'e' || e == 'E') = true)
      (signed : IsSign sign) (is : IsDigits digits) : IsPower (e :: (sign ++ digits))

theorem isPower_of_isExponent (exponent : IsExponent text) : IsPower text := by
  cases exponent with
  | none => exact .none
  | positive is => exact .some rfl (.inl rfl) is
  | negative is => exact .some rfl (.inr (.inr rfl)) is

/-- What a number in front of it does not go on with. -/
structure EndsNumber (rest : List Char) : Prop where
  digit : Stops isDigit rest
  point : Stops (· == '.') rest
  exponent : splitExponent rest = ([], rest)

theorem endsNumber_of_stops (stops : Stops Number.continues rest) : EndsNumber rest := by
  have apart : ∀ c ∈ rest.head?, (isDigit c = false ∧ (c == '.') = false) ∧
      (c == 'e' || c == 'E') = false := by
    intro c first
    have other := stops c first
    simp only [continues, Bool.or_eq_false_iff] at other ⊢
    exact ⟨other.1.1, other.1.2, other.2⟩
  refine ⟨fun c first => (apart c first).1.1, fun c first => (apart c first).1.2, ?_⟩
  cases rest with
  | nil => rfl
  | cons c rest => rw [splitExponent, (apart c rfl).2, if_neg Bool.false_ne_true]

theorem splitExponent_append (power : IsPower text) (ends : EndsNumber rest) :
    splitExponent (text ++ rest) = (text, rest) := by
  cases power with
  | none => exact ends.exponent
  | @some e sign digits opens signed is =>
    obtain ⟨c, more, rfl, digit⟩ := is.head
    have found := splitSign_append signed digit (more ++ rest)
    have taken := takeWhile_append_of_stops is.each ends.digit
    have left := dropWhile_append_of_stops is.each ends.digit
    rw [List.cons_append] at taken left
    rw [List.cons_append, List.append_assoc, List.cons_append, splitExponent, if_pos opens, found]
    dsimp only
    rw [taken, left]

theorem stops_exponent {e : Char} (opens : (e == 'e' || e == 'E') = true) (tail : List Char) :
    Stops isDigit (e :: tail) ∧ Stops (· == '.') (e :: tail) := by
  simp only [Bool.or_eq_true, beq_iff_eq] at opens
  rcases opens with rfl | rfl <;> exact ⟨stops_cons rfl, stops_cons rfl⟩

theorem stops_power (power : IsPower text) (ends : EndsNumber rest) :
    Stops isDigit (text ++ rest) ∧ Stops (· == '.') (text ++ rest) := by
  cases power with
  | none => exact ⟨ends.digit, ends.point⟩
  | some opens => exact stops_exponent opens _

/-- A number is split off by its parts, each of which does not begin like the one before it. -/
theorem splitNumber_parts {whole fraction exponent : List Char}
    (digits : ∀ c ∈ whole, isDigit c = true) (point : IsFraction fraction)
    (power : IsPower exponent) (ends : EndsNumber rest) :
    splitNumber (whole ++ (fraction ++ exponent) ++ rest) =
      (whole ++ (fraction ++ exponent), rest) := by
  obtain ⟨digit, dot⟩ := stops_power power ends
  have stops : Stops isDigit (fraction ++ (exponent ++ rest)) := by
    cases point with
    | none => exact digit
    | some _ => exact stops_cons rfl
  simp only [splitNumber, List.append_assoc]
  rw [takeWhile_append_of_stops digits stops, dropWhile_append_of_stops digits stops,
    splitFraction_append point digit dot]
  dsimp only
  rw [splitExponent_append power ends]

theorem splitNumber_append (numeral : IsNumeral text) (stops : Stops Number.continues rest) :
    splitNumber (text ++ rest) = (text, rest) := by
  obtain ⟨digits, point, power⟩ := numeral
  exact splitNumber_parts digits.each point (isPower_of_isExponent power)
    (endsNumber_of_stops stops)

end Rollup.Lexeme
