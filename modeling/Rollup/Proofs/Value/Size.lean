import Mathlib.Tactic.IntervalCases
import Mathlib.Tactic.Linarith
import Rollup.Proofs.Computation
import Rollup.Proofs.Number.Digits
import Rollup.Proofs.Number.Exact
import Rollup.Value.Size

/-! Sizes that are written in units are read again.

The greatest unit that is not greater than a size is found by going up from the least one, through
words only. A size that is a whole number of its unit is divided exactly, as there are few of the
greatest units in a word. What is written reads back where the reader knows the unit and means the
same by it: it does not know exa, and a prefix with `B` behind it is a power of 1024 to it in every
system.
-/

set_option autoImplicit false

namespace Rollup

theorem Number.fitsWord_natCast {n : Nat} : fitsWord n = true ↔ n < 2 ^ 63 := by
  have least : minWord = -2 ^ 63 := rfl
  have greatest : maxWord = 2 ^ 63 - 1 := rfl
  rw [fitsWord_iff, least, greatest]
  omega

namespace Size
variable {system : UnitSystem}

/-! ## The unit of a size -/

/-- Going up multiplies with the base as long as the magnitude is not exceeded, if the products that
it can come to are words. -/
theorem climb_spec {base : Nat} (positive : 0 < base) (magnitude exponent : Nat) {steps scale : Nat}
    (words : scale * base ^ steps ≤ Number.maxUnsignedWord) :
    ∃ up ≤ steps, climb base magnitude steps exponent scale = (exponent + up, scale * base ^ up) ∧
      (up = 0 ∨ scale * base ^ up ≤ magnitude) ∧
      (up = steps ∨ magnitude < scale * base ^ (up + 1)) := by
  induction steps generalizing exponent scale with
  | zero => exact ⟨0, Nat.le_refl _, by simp [climb], .inl rfl, .inl rfl⟩
  | succ steps ih =>
    have shifted : ∀ n, scale * base ^ (n + 1) = scale * base * base ^ n := fun n => by
      rw [Nat.pow_succ']
      exact (Nat.mul_assoc _ _ _).symm
    rw [shifted] at words
    have next : scale * base ≤ Number.maxUnsignedWord :=
      (Nat.le_mul_of_pos_right _ (Nat.pow_pos positive)).trans words
    rw [climb]
    split
    case isTrue within =>
      obtain ⟨up, bound, reached, low, high⟩ := ih (exponent + 1) words
      refine ⟨up + 1, Nat.succ_le_succ bound, ?_, .inr ?_, ?_⟩
      · rw [reached, shifted, Nat.add_right_comm, Nat.add_assoc]
      · rw [shifted]
        rcases low with rfl | low
        · simpa using within.2
        · exact low
      · rw [shifted]
        exact high.imp_left (congrArg (· + 1))
    case isFalse beyond =>
      have exceeds := Nat.lt_of_not_le fun within => beyond ⟨next, within⟩
      exact ⟨0, Nat.zero_le _, by simp, .inl rfl, .inr (by simpa using exceeds)⟩

theorem base_pos (system : UnitSystem) : 0 < system.base := by cases system <;> decide

theorem pow_base_le (system : UnitSystem) {exponent : Nat} (known : exponent ≤ 6) :
    system.base ^ exponent ≤ Number.maxUnsignedWord := by
  calc
    system.base ^ exponent ≤ system.base ^ 6 := Nat.pow_le_pow_right (base_pos system) known
    _ ≤ Number.maxUnsignedWord := by cases system <;> decide

/-- The exponent of the greatest unit that is not greater than a magnitude, or zero if there is
none. -/
structure IsUnit (system : UnitSystem) (magnitude exponent : Nat) : Prop where
  known : exponent ≤ 6
  low : exponent = 0 ∨ system.base ^ exponent ≤ magnitude
  high : exponent = 6 ∨ magnitude < system.base ^ (exponent + 1)

theorem unitOf_spec (system : UnitSystem) (magnitude : Nat) :
    ∃ exponent, unitOf system magnitude = (exponent, system.base ^ exponent) ∧
      IsUnit system magnitude exponent := by
  have words : 1 * system.base ^ unitPrefixes.length ≤ Number.maxUnsignedWord := by
    rw [Nat.one_mul]
    exact pow_base_le system (Nat.le_refl 6)
  obtain ⟨up, known, reached, low, high⟩ :=
    climb_spec (base_pos system) magnitude 0 words
  rw [Nat.zero_add, Nat.one_mul] at reached
  simp only [Nat.one_mul] at low high
  exact ⟨up, reached, known, low, high⟩

section
variable {magnitude exponent : Nat}

theorem IsUnit.lt_base_iff (unit : IsUnit system magnitude exponent) :
    magnitude < system.base ↔ exponent = 0 := by
  constructor
  · intro less
    by_contra positive
    have reached := unit.low.resolve_left positive
    have least := Nat.le_self_pow positive system.base
    omega
  · rintro rfl
    simpa using unit.high

theorem IsUnit.lt_exa_iff (unit : IsUnit system magnitude exponent) :
    magnitude < system.base ^ 6 ↔ exponent ≠ 6 := by
  constructor
  · rintro less rfl
    have reached := unit.low.resolve_left (by decide)
    omega
  · intro other
    have less := unit.high.resolve_left other
    have known := unit.known
    exact less.trans_le (Nat.pow_le_pow_right (base_pos system) (by omega))

end

/-- A size that is not less than the least unit is written in the greatest unit that is not greater
than the size. Going up to it ends with the greatest of all units or at one that exceeds the size,
and never because a product is no word. -/
theorem format_greatest_unit (system : UnitSystem) {value : Int} {places : Nat}
    (large : system.base ≤ value.natAbs) (few : places ≤ 3) :
    ∃ exponent scale letter, unitOf system value.natAbs = (exponent, scale) ∧
      1 ≤ exponent ∧ exponent ≤ 6 ∧ scale = system.base ^ exponent ∧
      scale ≤ Number.maxUnsignedWord ∧ scale ≤ value.natAbs ∧
      (exponent = 6 ∨
        scale * system.base ≤ Number.maxUnsignedWord ∧ value.natAbs < scale * system.base) ∧
      unitPrefixes[exponent - 1]? = some letter ∧
      format value places system =
        .ok (Number.fixed places ((Binary64.ofInt value).div (Binary64.ofInt scale)) ++
          String.ofList (system.suffix letter)) := by
  obtain ⟨exponent, found, unit⟩ := unitOf_spec system value.natAbs
  have positive : exponent ≠ 0 := fun least => Nat.not_lt.mpr large (unit.lt_base_iff.mpr least)
  obtain ⟨below, rfl⟩ := Nat.exists_eq_succ_of_ne_zero positive
  have inside : below < unitPrefixes.length := unit.known
  have letter : unitPrefixes[below]? = some unitPrefixes[below] := List.getElem?_eq_getElem inside
  refine ⟨below + 1, _, unitPrefixes[below], found, Nat.succ_pos below, unit.known, rfl,
    pow_base_le system unit.known, unit.low.resolve_left positive, ?_, letter, ?_⟩
  · refine or_iff_not_imp_left.mpr fun other => ?_
    have next := unit.high.resolve_left other
    rw [← Nat.pow_succ]
    exact ⟨pow_base_le system (Nat.lt_of_le_of_ne unit.known other), next⟩
  · rw [format, if_neg (Nat.not_lt.mpr few), found]
    dsimp only
    rw [letter]
    rfl

/-- The least word is more than nine exa, though its negation is no word. -/
theorem format_greatest_unit_least :
    UnitSystem.decimal.base ≤ Number.minWord.natAbs ∧ 3 ≤ 3 ∧
      ∃ exponent scale letter, unitOf .decimal Number.minWord.natAbs = (exponent, scale) ∧
        1 ≤ exponent ∧ exponent ≤ 6 ∧ scale = UnitSystem.decimal.base ^ exponent ∧
        scale ≤ Number.maxUnsignedWord ∧ scale ≤ Number.minWord.natAbs ∧
        (exponent = 6 ∨ scale * UnitSystem.decimal.base ≤ Number.maxUnsignedWord ∧
          Number.minWord.natAbs < scale * UnitSystem.decimal.base) ∧
        unitPrefixes[exponent - 1]? = some letter ∧
        format Number.minWord 3 .decimal =
          .ok (Number.fixed 3 ((Binary64.ofInt Number.minWord).div (Binary64.ofInt scale)) ++
            String.ofList (UnitSystem.decimal.suffix letter)) := by
  have large : UnitSystem.decimal.base ≤ Number.minWord.natAbs := by decide
  exact ⟨large, Nat.le_refl 3, format_greatest_unit .decimal large (Nat.le_refl 3)⟩

/-! ## Writing whole numbers of units -/

def unitText (system : UnitSystem) : Nat → List Char
  | 0 => system.bareSuffix
  | exponent + 1 => system.suffix ((unitPrefixes[exponent]?).getD 'K')

theorem IsUnit.count_lt {count exponent : Nat}
    (unit : IsUnit system (count * system.base ^ exponent) exponent)
    (fits : count * system.base ^ exponent < 2 ^ 63) : count < 1024 := by
  rcases unit.high with rfl | high
  · cases system <;> · simp only [UnitSystem.base] at fits; omega
  · rw [Nat.pow_succ', Nat.mul_lt_mul_right (Nat.pow_pos (base_pos system))] at high
    cases system <;> · simp only [UnitSystem.base] at high; omega

theorem isExact_mul_pow {count factor power exponent : Nat} (few : count < 1024)
    (known : exponent ≤ 6) (small : factor ≤ 125) (base : factor * 2 ^ power ≤ 1024) :
    Binary64.IsExact (count * (factor * 2 ^ power) ^ exponent : Nat) := by
  refine ⟨⟨count * factor ^ exponent, (power * exponent : Nat), ?_, by omega, ?_⟩, ?_⟩
  · calc
      count * factor ^ exponent ≤ count * 125 ^ exponent := by gcongr
      _ ≤ 1024 * 125 ^ 6 := Nat.mul_le_mul few.le (Nat.pow_le_pow_right (by decide) known)
      _ < 2 ^ 53 := by norm_num
  · rw [zpow_natCast, Nat.mul_pow, ← Nat.pow_mul]
    push_cast
    ring
  · have bounded : count * (factor * 2 ^ power) ^ exponent ≤ 2 ^ 70 := by
      calc
        count * (factor * 2 ^ power) ^ exponent ≤ count * 1024 ^ exponent := by gcongr
        _ ≤ 1024 * 1024 ^ 6 := Nat.mul_le_mul few.le (Nat.pow_le_pow_right (by decide) known)
        _ = 2 ^ 70 := by norm_num
    calc
      ((count * (factor * 2 ^ power) ^ exponent : Nat) : ℚ) ≤ (2 ^ 70 : Nat) := by
        exact_mod_cast bounded
      _ = 2 ^ (70 : Int) := by norm_cast
      _ < 2 ^ (1024 : Int) := zpow_lt_zpow_right₀ one_lt_two (by decide)

theorem isExact_units (system : UnitSystem) {count exponent : Nat} (few : count < 1024)
    (known : exponent ≤ 6) : Binary64.IsExact (count * system.base ^ exponent : Nat) := by
  cases system with
  | binary => exact isExact_mul_pow few known (by decide : 1 ≤ 125) (by decide : 1 * 2 ^ 10 ≤ 1024)
  | decimalByte | decimal =>
    exact isExact_mul_pow few known (by decide : 125 ≤ 125) (by decide : 125 * 2 ^ 3 ≤ 1024)

theorem format_units {value : Nat} {count exponent : Nat} (few : count < 1024)
    (known : exponent ≤ 6) (unit : unitOf system value = (exponent, system.base ^ exponent))
    (whole : value = count * system.base ^ exponent) :
    format value 0 system =
      .ok (String.ofList (Nat.toDigits 10 count ++ unitText system exponent)) := by
  rw [format, if_neg (by decide), Int.natAbs_natCast, unit]
  cases exponent with
  | zero =>
    obtain rfl : value = count := by simpa using whole
    dsimp only
    rw [unitText, String.ofList_append, ← Nat.repr_eq_ofList_toDigits]
    rfl
  | succ exponent =>
    obtain ⟨a, dividend, a_value⟩ := Binary64.ofInt_spec (whole ▸ isExact_units system few known)
    obtain ⟨b, divisor, b_value⟩ := Binary64.ofInt_spec
      (Nat.one_mul _ ▸ isExact_units system (by decide : 1 < 1024) known)
    have positive : (system.base ^ (exponent + 1) : Nat) ≠ 0 :=
      (Nat.pow_pos (base_pos system)).ne'
    have quotient : Binary64.magnitude a / Binary64.magnitude b = (count : ℚ) := by
      rw [a_value, b_value, whole, Nat.cast_mul, mul_div_assoc,
        div_self (by exact_mod_cast positive), mul_one]
    obtain ⟨code, is, value⟩ := Binary64.div_spec false false (a := a) (b := b)
      (by rw [b_value]; exact_mod_cast positive)
      (by rw [quotient]; simpa using isExact_units system few (Nat.zero_le 6))
    dsimp only
    rw [dividend, divisor, is, Number.fixed_whole _ (value.trans quotient)]
    rw [String.ofList_append]
    rfl

/-! ## Reading -/

/-- What the reader takes a prefix for, in the texts of a system. -/
def readBase : UnitSystem → Nat
  | .binary | .decimalByte => 1024
  | .decimal => 1000

theorem multiplier?_unitText (system : UnitSystem) {exponent : Nat} (known : exponent ≤ 6) :
    multiplier? (unitText system exponent) =
      if exponent = 6 then none else some (readBase system ^ exponent) := by
  interval_cases exponent <;> cases system <;> rfl

theorem stops_unitText (system : UnitSystem) {exponent : Nat} (known : exponent ≤ 6) :
    Stops Number.isDigit (unitText system exponent) := by
  interval_cases exponent <;> cases system <;>
    first | exact stops_nil | exact stops_cons (by decide)

theorem ofChars_digits (count : Nat) {unit : List Char} (stops : Stops Number.isDigit unit) :
    ofChars (Nat.toDigits 10 count ++ unit) = ofCount count unit := by
  have digits : ∀ c ∈ Nat.toDigits 10 count, Number.isDigit c = true :=
    fun c => Number.isDigit_of_mem_toDigits
  have some_ : (Nat.toDigits 10 count).isEmpty = false := by simp [Nat.toDigits_ne_nil]
  have taken := takeWhile_append_of_stops digits stops
  have left := dropWhile_append_of_stops digits stops
  have value := Number.ofDigits_toDigits count
  generalize Nat.toDigits 10 count = text at *
  unfold ofChars
  split
  · rename_i empty
    rw [(List.append_eq_nil_iff.mp empty).1] at some_
    cases some_
  · rename_i rest signed
    cases text with
    | nil => cases some_
    | cons c tail =>
      have digit := digits c List.mem_cons_self
      rw [(List.cons.inj signed).1] at digit
      cases digit
  · dsimp only
    rw [taken, left, some_, value]
    rfl

theorem ofChars_units (system : UnitSystem) {count exponent : Nat} (few : count < 1024)
    (known : exponent ≤ 6) :
    ofChars (Nat.toDigits 10 count ++ unitText system exponent) =
      if exponent = 6 then .error (.unknownSizeUnit (String.ofList (unitText system exponent)))
      else .ok ⟨(count * readBase system ^ exponent : Nat)⟩ := by
  have fits := Number.fitsWord_natCast.mpr (few.trans (by decide))
  rw [ofChars_digits count (stops_unitText system known), ofCount, fits,
    multiplier?_unitText system known]
  by_cases exa : exponent = 6
  · rw [if_pos exa, if_pos exa]
    rfl
  · have power : readBase system ^ exponent ≤ 1024 ^ 5 := by
      calc
        readBase system ^ exponent ≤ 1024 ^ exponent :=
          Nat.pow_le_pow_left (by cases system <;> decide) _
        _ ≤ 1024 ^ 5 := Nat.pow_le_pow_right (by decide) (by omega)
    have bounded : count * readBase system ^ exponent < 2 ^ 63 := by
      calc
        count * readBase system ^ exponent ≤ 1024 * 1024 ^ 5 := Nat.mul_le_mul few.le power
        _ < 2 ^ 63 := by norm_num
    rw [if_neg exa, if_neg exa]
    dsimp only
    rw [Number.fitsWord_natCast.mpr bounded]
    rfl

/-! ## Reading what is written -/

/-- The reader and the writer mean the same by a prefix, but for the decimal units with a `B`. -/
theorem readBase_eq_iff : readBase system = system.base ↔ system ≠ .decimalByte := by
  cases system <;> decide

theorem ofChars_units_eq_ok_iff {count exponent : Nat} (few : count < 1024) (known : exponent ≤ 6)
    (some_ : exponent = 0 ∨ count ≠ 0) :
    ofChars (Nat.toDigits 10 count ++ unitText system exponent) =
        .ok ⟨(count * system.base ^ exponent : Nat)⟩ ↔
      exponent = 0 ∨ system ≠ .decimalByte ∧ exponent ≠ 6 := by
  rw [ofChars_units system few known]
  by_cases exa : exponent = 6
  · rw [if_pos exa]
    exact iff_of_false nofun (by omega)
  · rw [if_neg exa, Except.ok.injEq, Size.mk.injEq, Int.ofNat_inj]
    by_cases least : exponent = 0
    · rw [least]
      exact iff_of_true rfl (.inl rfl)
    · rw [Nat.mul_right_inj (some_.resolve_left least), Nat.pow_left_inj least, readBase_eq_iff,
        or_iff_right least, and_iff_left exa]

/-- A size that is less than its system's least unit, or a whole number of its unit, is written. It
is what is read again exactly if it is less than the least unit, or else the unit is below exa and
not one of the decimal units with a `B`. -/
theorem parse_format_iff (system : UnitSystem) {value : Int} (nonneg : 0 ≤ value)
    (fits : Number.fitsWord value = true)
    (whole : value < system.base ∨ ((unitOf system value.natAbs).2 : Int) ∣ value) :
    ∃ text, format value 0 system = .ok text ∧
      (parse text = .ok ⟨value⟩ ↔
        value < system.base ∨ system ≠ .decimalByte ∧ value < system.base ^ 6) := by
  obtain ⟨value, rfl⟩ := Int.eq_ofNat_of_zero_le nonneg
  rw [Int.natAbs_natCast] at whole
  obtain ⟨exponent, found, unit⟩ := unitOf_spec system value
  -- Below the least unit everything is a whole number of units.
  obtain ⟨count, rfl⟩ : ∃ count, value = count * system.base ^ exponent := by
    rcases whole with less | divides
    · obtain rfl := unit.lt_base_iff.mp (by exact_mod_cast less)
      exact ⟨value, by simp⟩
    · rw [found] at divides
      exact (dvd_iff_exists_eq_mul_left).mp (by exact_mod_cast divides)
  have few := unit.count_lt (Number.fitsWord_natCast.mp fits)
  have some_ : exponent = 0 ∨ count ≠ 0 := by
    refine unit.low.imp_right ?_
    rintro reached rfl
    have positive := Nat.pow_pos (n := exponent) (base_pos system)
    omega
  refine ⟨_, format_units few unit.known found rfl, ?_⟩
  rw [parse, mapError_eq_ok, String.toList_ofList, ofChars_units_eq_ok_iff few unit.known some_,
    ← unit.lt_base_iff, ← unit.lt_exa_iff]
  norm_cast

theorem parse_format_pebibytes :
    Number.fitsWord (5 * 1024 ^ 5) = true ∧
      ((unitOf .binary (5 * 1024 ^ 5)).2 : Int) ∣ 5 * 1024 ^ 5 ∧
      ∃ text, format (5 * 1024 ^ 5) 0 .binary = .ok text ∧ parse text = .ok ⟨5 * 1024 ^ 5⟩ := by
  have fits : Number.fitsWord (5 * 1024 ^ 5) = true := by decide
  have whole : ((unitOf .binary (5 * 1024 ^ 5)).2 : Int) ∣ 5 * 1024 ^ 5 := by decide
  obtain ⟨text, written, reads⟩ := parse_format_iff .binary (by decide) fits (.inr whole)
  exact ⟨fits, whole, text, written, reads.mpr (.inr ⟨nofun, by decide⟩)⟩

/-- A kilobyte of 1000 bytes is read as one of 1024 bytes, and exbibytes are not read at all. -/
theorem format_misread :
    ((unitOf .decimalByte 1000).2 : Int) ∣ 1000 ∧ format 1000 0 .decimalByte = .ok "1KB" ∧
      parse "1KB" = .ok ⟨1024⟩ ∧
      ((unitOf .binary (1024 ^ 6)).2 : Int) ∣ 1024 ^ 6 ∧
      format (1024 ^ 6) 0 .binary = .ok "1EiB" ∧
      parse "1EiB" = .error ⟨"1EiB", .unknownSizeUnit "EiB"⟩ := by
  decide +kernel

end Size

end Rollup
