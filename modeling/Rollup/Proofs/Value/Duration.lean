import Rollup.Proofs.Computation
import Rollup.Proofs.Number.Numeral
import Rollup.Value.Duration

/-! Which durations are read, and that those that are written are read again.

A text is cut in front of its last character, however many bytes that has, so a duration is read
from a count and the letter of a unit and from nothing else. A duration that has been read is a
whole number of its unit, so the number that is written is the one that was read, and its range has
been checked.
-/

set_option autoImplicit false

namespace Rollup

namespace DurationUnit
variable {unit : DurationUnit}

theorem scale_ne_zero (unit : DurationUnit) : unit.scale ≠ 0 := by cases unit <;> decide

theorem ofSuffix?_eq_some {last : Char} : ofSuffix? last = some unit ↔ last = unit.suffix := by
  constructor
  · intro found
    unfold ofSuffix? at found
    split at found <;> cases found <;> rfl
  · rintro rfl
    cases unit <;> rfl

end DurationUnit

namespace Duration
variable {d : Duration} {text : List Char}

/-! ## Reading -/

/-- A count of units that is within the range of a word, as are its seconds. -/
def IsCounted (d : Duration) : Prop :=
  ∃ count, Number.fitsWord count = true ∧ Number.fitsWord (count * d.unit.scale) = true ∧
    d.seconds = count * d.unit.scale

/-- An integer and the letter of a unit, where neither the count nor its seconds leave the range of
a word. -/
inductive Spells : List Char → Duration → Prop
  | mk {body : List Char} {count : Int} {unit : DurationUnit} : Number.Spells body count →
    Number.fitsWord count = true → Number.fitsWord (count * unit.scale) = true →
    Spells (body ++ [unit.suffix]) ⟨count * unit.scale, unit⟩

theorem Spells.isCounted (spells : Spells text d) : d.IsCounted := by
  obtain ⟨-, fits, within⟩ := spells
  exact ⟨_, fits, within, rfl⟩

theorem ofCount_eq_ok {count : Int} {unit : DurationUnit} :
    ofCount count unit = .ok d ↔ Number.fitsWord count = true ∧
      Number.fitsWord (count * unit.scale) = true ∧ ⟨count * unit.scale, unit⟩ = d := by
  rw [ofCount, ← and_assoc, ← Bool.and_eq_true_iff]
  split <;> simp [*]

theorem ofParts_eq_ok {last : Char} : ofParts text last = .ok d ↔ Spells (text ++ [last]) d := by
  constructor
  · intro ok
    rw [ofParts] at ok
    split at ok
    · cases ok
    · rename_i unit known
      obtain rfl := DurationUnit.ofSuffix?_eq_some.mp known
      split at ok
      · cases ok
      · rename_i count read
        obtain ⟨fits, within, rfl⟩ := ofCount_eq_ok.mp ok
        exact .mk (Number.readInt?_eq_some.mp read) fits within
  · generalize whole : text ++ [last] = written
    rintro ⟨spells, fits, within⟩
    obtain ⟨rfl, ⟨⟩⟩ := List.append_inj' whole rfl
    rw [ofParts, DurationUnit.ofSuffix?_eq_some.mpr rfl]
    dsimp only
    rw [Number.readInt?_eq_some.mpr spells]
    exact ofCount_eq_ok.mpr ⟨fits, within, rfl⟩

theorem Spells.long (spells : Spells text d) : ¬Text.byteLength text < 2 := by
  obtain @⟨body, _, unit, spelled, -, -⟩ := spells
  have digits : body ≠ [] := by
    cases spelled with
    | unsigned digits => exact digits.nonempty
    | positive | negative => exact List.cons_ne_nil _ _
  have first := Text.byteLength_pos digits
  have suffix := Text.byteLength_pos (List.cons_ne_nil unit.suffix [])
  rw [Text.byteLength_append]
  omega

theorem ofChars_eq_ok : ofChars text = .ok d ↔ Spells text d := by
  rcases List.eq_nil_or_concat text with rfl | ⟨body, last, rfl⟩
  · refine iff_of_false nofun fun spells => spells.long (by decide)
  · rw [ofChars, List.concat_eq_append, List.getLast?_concat]
    dsimp only
    split
    case isTrue short => exact iff_of_false nofun fun spells => spells.long short
    case isFalse => rw [List.dropLast_concat, ofParts_eq_ok]

theorem parse_eq_ok {text : String} : parse text = .ok d ↔ Spells text.toList d := by
  rw [parse, mapError_eq_ok, ofChars_eq_ok]

theorem isCounted_of_parse {text : String} (ok : parse text = .ok d) : d.IsCounted :=
  (parse_eq_ok.mp ok).isCounted

theorem format_ofChars (text : List Char) :
    FailsOnly (fun fault => fault.kind = .format) (ofChars text) := by
  unfold ofChars
  split
  · exact .error rfl
  · split
    · exact .error rfl
    · unfold ofParts
      split
      · exact .error rfl
      · split
        · exact .error rfl
        · unfold ofCount
          split
          · exact .ok _
          · exact .error rfl

/-! ## Writing -/

theorem isCounted_ofSeconds {seconds : Int} (fits : Number.fitsWord seconds = true) :
    (ofSeconds seconds).IsCounted :=
  ⟨seconds, fits, by rwa [ofSeconds, DurationUnit.scale, Int.mul_one], (Int.mul_one seconds).symm⟩

theorem toList_render : d.render.toList =
    (toString (d.seconds.tdiv d.unit.scale)).toList ++ [d.unit.suffix] := by
  rw [render, String.toList_append, Char.toString, String.toList_singleton]

theorem parse_render (counted : d.IsCounted) : parse d.render = .ok d := by
  obtain ⟨count, fits, within, seconds⟩ := counted
  have whole : d.seconds.tdiv d.unit.scale = count := by
    rw [seconds, Int.mul_tdiv_cancel _ (DurationUnit.scale_ne_zero _)]
  have spells := Number.readInt?_eq_some.mp (Number.readInt?_toString count)
  rw [parse_eq_ok, toList_render, whole]
  obtain ⟨_, unit⟩ := d
  obtain rfl : _ = count * unit.scale := seconds
  exact .mk spells fits within

/-- Durations are read from an optional sign, digits and the letter of a unit, in the range of a
word, and all other texts are refused as malformed. What is read, or made of seconds, is read again
from what is written of it. -/
theorem parse_spells :
    (∀ text d, parse text = .ok d ↔ Spells text.toList d) ∧
      (∀ text e, parse text = .error e → e.text = text ∧ e.fault.kind = .format) ∧
      ∀ d, (∃ text, parse text = .ok d) ∨
          (∃ seconds, Number.fitsWord seconds = true ∧ d = ofSeconds seconds) →
        parse d.render = .ok d := by
  refine ⟨fun _ _ => parse_eq_ok, fun text e failed => ?_, ?_⟩
  · rw [parse, mapError_eq_error] at failed
    obtain ⟨fault, failed, rfl⟩ := failed
    exact ⟨rfl, format_ofChars _ fault failed⟩
  · rintro d (⟨text, ok⟩ | ⟨seconds, fits, rfl⟩)
    · exact parse_render (isCounted_of_parse ok)
    · exact parse_render (isCounted_ofSeconds fits)

/-- The longest duration of minutes into the past, one more minute, and a letter of two bytes. -/
theorem parse_spells_bounds :
    (parse "-153722867280912930m" = .ok ⟨-9223372036854775800, .minutes⟩ ∧
      parse (render ⟨-9223372036854775800, .minutes⟩) = .ok ⟨-9223372036854775800, .minutes⟩) ∧
      (∃ e, parse "-153722867280912931m" = .error e ∧ e.fault.kind = .format) ∧
      ∃ e, parse "1ß" = .error e ∧ e.fault.kind = .format := by
  have read : parse "-153722867280912930m" = .ok ⟨-9223372036854775800, .minutes⟩ := by
    decide +kernel
  have beyond : parse "-153722867280912931m" =
      .error ⟨"-153722867280912931m", .durationOutOfRange⟩ := by
    decide +kernel
  have letter : parse "1ß" = .error ⟨"1ß", .unknownDurationUnit 'ß'⟩ := by
    decide +kernel
  exact ⟨⟨read, parse_spells.2.2 _ (.inl ⟨_, read⟩)⟩, ⟨_, beyond, (parse_spells.2.1 _ _ beyond).2⟩,
    ⟨_, letter, (parse_spells.2.1 _ _ letter).2⟩⟩

end Duration

end Rollup
