import Mathlib.Algebra.Order.Field.Power
import Mathlib.Algebra.Order.Field.Rat
import Mathlib.Data.Nat.Log
import Mathlib.Tactic.FieldSimp
import Mathlib.Tactic.NormNum
import Mathlib.Tactic.Positivity
import Mathlib.Tactic.Ring
import Rollup.Number.Layout

/-! Numbers that need no rounding.

The magnitudes of binary floating-point numbers are whole numbers of at most 53 bits in a unit that
is a power of two. A quotient that is one of them is not changed by rounding, so numbers are divided
exactly where their quotient is a number, and a whole number is written in its digits.
-/

set_option autoImplicit false

namespace Rollup.Binary64

/-- The magnitude with a code. -/
def magnitude (code : Nat) : ℚ := significand code * 2 ^ exponent code

/-- A magnitude that a finite number has: at most 53 bits in a unit that is a power of two. -/
structure IsExact (x : ℚ) : Prop where
  units : ∃ (m : Nat) (e : Int), m < 2 ^ 53 ∧ -1074 ≤ e ∧ x = m * 2 ^ e
  bounded : x < 2 ^ (1024 : Int)

theorem zpow_eq_natPow {e : Int} (nonneg : 0 ≤ e) : (2 : ℚ) ^ e = (Nat.pow 2 e.toNat : Nat) := by
  obtain ⟨n, rfl⟩ := Int.eq_ofNat_of_zero_le nonneg
  simp

theorem scaled_spec (num : Nat) {den : Nat} (positive : 0 < den) (shift : Int) :
    0 < (scaled num den shift).2 ∧
      ((scaled num den shift).1 : ℚ) / (scaled num den shift).2 = num / den * 2 ^ shift := by
  unfold scaled
  split
  case isTrue up =>
    refine ⟨positive, ?_⟩
    rw [zpow_eq_natPow up, Nat.cast_mul]
    ring
  case isFalse down =>
    refine ⟨Nat.mul_pos positive (Nat.pow_pos (by decide)), ?_⟩
    have scale := zpow_eq_natPow (e := -shift) (by omega)
    rw [Nat.cast_mul, ← scale, zpow_neg, div_mul_eq_div_div, div_inv_eq_mul]

theorem zpow_log2_spec {n : Nat} (positive : 0 < n) :
    (2 : ℚ) ^ (n.log2 : Int) ≤ n ∧ (n : ℚ) < 2 ^ (n.log2 + 1 : Int) := by
  constructor
  · exact_mod_cast Nat.log2_self_le positive.ne'
  · exact_mod_cast Nat.lt_log2_self

theorem floorLog2_spec {num den : Nat} (num_pos : 0 < num) (den_pos : 0 < den) :
    (2 : ℚ) ^ floorLog2 num den ≤ num / den ∧ (num / den : ℚ) < 2 ^ (floorLog2 num den + 1) := by
  have positive : (0 : ℚ) < den := by exact_mod_cast den_pos
  obtain ⟨num_low, num_high⟩ := zpow_log2_spec num_pos
  obtain ⟨den_low, den_high⟩ := zpow_log2_spec den_pos
  obtain ⟨scaled_pos, scaled_eq⟩ := scaled_spec num den_pos (-((num.log2 : Int) - den.log2))
  have scaled_pos' : (0 : ℚ) < (scaled num den (-((num.log2 : Int) - den.log2))).2 := by
    exact_mod_cast scaled_pos
  have power : (0 : ℚ) < 2 ^ ((num.log2 : Int) - den.log2) := by positivity
  rw [zpow_neg, ← div_eq_mul_inv] at scaled_eq
  unfold floorLog2
  dsimp only
  split
  case isTrue small =>
    constructor
    · rw [le_div_iff₀ positive]
      calc
        (2 : ℚ) ^ ((num.log2 : Int) - den.log2 - 1) * den
            ≤ 2 ^ ((num.log2 : Int) - den.log2 - 1) * 2 ^ (den.log2 + 1 : Int) := by
          gcongr
        _ = 2 ^ (num.log2 : Int) := by
          rw [← zpow_add₀ two_ne_zero]
          congr 1
          omega
        _ ≤ num := num_low
    · have below : (num / den / 2 ^ ((num.log2 : Int) - den.log2) : ℚ) < 1 := by
        rw [← scaled_eq, div_lt_one scaled_pos']
        exact_mod_cast small
      rw [sub_add_cancel]
      exact (div_lt_one power).mp below
  case isFalse great =>
    constructor
    · have above : (1 : ℚ) ≤ num / den / 2 ^ ((num.log2 : Int) - den.log2) := by
        rw [← scaled_eq, one_le_div scaled_pos']
        exact_mod_cast Nat.le_of_not_lt great
      exact (one_le_div power).mp above
    · rw [div_lt_iff₀ positive]
      calc
        (num : ℚ) < 2 ^ (num.log2 + 1 : Int) := num_high
        _ = 2 ^ ((num.log2 : Int) - den.log2 + 1) * 2 ^ (den.log2 : Int) := by
          rw [← zpow_add₀ two_ne_zero]
          congr 1
          omega
        _ ≤ 2 ^ ((num.log2 : Int) - den.log2 + 1) * den := by
          gcongr

theorem magnitude_code {m steps : Nat} (less : m < 2 * binade) (leads : steps = 0 ∨ binade ≤ m) :
    magnitude (m + steps * binade) = m * 2 ^ ((steps : Int) - 1074) := by
  have positive : 0 < binade := by decide
  unfold magnitude significand exponent
  by_cases small : m < binade
  · obtain rfl := leads.resolve_right (Nat.not_le_of_lt small)
    rw [Nat.zero_mul, Nat.add_zero, if_pos small, if_pos small]
    rfl
  · have one : m / binade = 1 := Nat.div_eq_of_lt_le (by omega) (by omega)
    have rest : binade + m % binade = m := by
      have split := Nat.div_add_mod m binade
      rwa [one, Nat.mul_one] at split
    have beyond : ¬m + steps * binade < binade := by omega
    rw [if_neg beyond, if_neg beyond, Nat.add_mul_mod_self_right, rest,
      Nat.add_mul_div_right _ _ positive, one]
    congr 2
    omega

theorem roundQuotient_mul (n : Nat) {den : Nat} (positive : 0 < den) :
    roundQuotient (n * den) den = n := by
  simp [roundQuotient, Nat.mul_div_cancel _ positive, positive]

theorem IsExact.normal {x : ℚ} {log : Int} (exact : IsExact x) (low : 2 ^ log ≤ x)
    (high : x < 2 ^ (log + 1)) :
    ∃ m steps : Nat, max (log - 52) (-1074) = (steps : Int) - 1074 ∧ m < 2 * binade ∧
      (steps = 0 ∨ binade ≤ m) ∧ x = m * 2 ^ ((steps : Int) - 1074) := by
  have block : (2 : ℚ) ^ (52 : Int) = binade := by norm_num [binade]
  obtain ⟨m, e, bits, least, rfl⟩ := exact.units
  -- The unit of the block divides the given one, as 53 bits do not reach further.
  have unit : max (log - 52) (-1074) ≤ e := by
    refine max_le ?_ least
    have below : (2 : ℚ) ^ log < 2 ^ (53 + e) := by
      calc
        (2 : ℚ) ^ log ≤ m * 2 ^ e := low
        _ < 2 ^ 53 * 2 ^ e := by gcongr; exact_mod_cast bits
        _ = 2 ^ (53 + e) := by rw [zpow_add₀ two_ne_zero]; rfl
    have := (zpow_lt_zpow_iff_right₀ one_lt_two).mp below
    omega
  obtain ⟨steps, start⟩ : ∃ steps : Nat, max (log - 52) (-1074) = (steps : Int) - 1074 :=
    ⟨(max (log - 52) (-1074) + 1074).toNat, by omega⟩
  obtain ⟨shift, rfl⟩ : ∃ shift : Nat, e = shift + ((steps : Int) - 1074) :=
    ⟨(e - (steps - 1074)).toNat, by omega⟩
  have value : (m * 2 ^ ((shift : Int) + (steps - 1074)) : ℚ) =
      (m * 2 ^ shift : Nat) * 2 ^ ((steps : Int) - 1074) := by
    rw [zpow_add₀ two_ne_zero, zpow_natCast]
    push_cast
    ring
  rw [value] at low high ⊢
  have power : (0 : ℚ) < 2 ^ ((steps : Int) - 1074) := by positivity
  refine ⟨m * 2 ^ shift, steps, start, ?_, ?_, rfl⟩
  · have room : ((m * 2 ^ shift : Nat) : ℚ) * 2 ^ ((steps : Int) - 1074) <
        2 * binade * 2 ^ ((steps : Int) - 1074) := by
      calc
        _ < (2 : ℚ) ^ (log + 1) := high
        _ ≤ 2 ^ (1 + 52 + ((steps : Int) - 1074)) := zpow_le_zpow_right₀ one_le_two (by omega)
        _ = 2 * binade * 2 ^ ((steps : Int) - 1074) := by
          rw [zpow_add₀ two_ne_zero, zpow_add₀ two_ne_zero, block, zpow_one]
    exact_mod_cast lt_of_mul_lt_mul_right room power.le
  · by_cases first : steps = 0
    · exact .inl first
    · have room : (binade : ℚ) * 2 ^ ((steps : Int) - 1074) ≤
          (m * 2 ^ shift : Nat) * 2 ^ ((steps : Int) - 1074) := by
        calc
          _ = (2 : ℚ) ^ (52 + ((steps : Int) - 1074)) := by rw [zpow_add₀ two_ne_zero, block]
          _ ≤ 2 ^ log := zpow_le_zpow_right₀ one_le_two (by omega)
          _ ≤ _ := low
      exact .inr (by exact_mod_cast le_of_mul_le_mul_right room power)

/-- What is nearest to an exact quotient is the quotient itself. -/
theorem nearestCode_spec {num den : Nat} (positive : 0 < den) (exact : IsExact (num / den)) :
    nearestCode num den < codes ∧ magnitude (nearestCode num den) = num / den := by
  by_cases zero : num = 0
  · rw [nearestCode, if_pos zero, zero]
    exact ⟨by decide, by simp [magnitude, significand, binade]⟩
  obtain ⟨low, high⟩ := floorLog2_spec (Nat.pos_of_ne_zero zero) positive
  rw [nearestCode, if_neg zero]
  obtain ⟨m, steps, start, less, leads, value⟩ := exact.normal low high
  have reached := (zpow_lt_zpow_iff_right₀ one_lt_two).mp (lt_of_le_of_lt low exact.bounded)
  obtain ⟨scaled_pos, scaled_eq⟩ := scaled_spec num positive (-max (floorLog2 num den - 52) (-1074))
  dsimp only
  rw [start] at scaled_pos scaled_eq ⊢
  -- In its unit the quotient is whole.
  have whole : (scaled num den (-((steps : Int) - 1074))).1 =
      m * (scaled num den (-((steps : Int) - 1074))).2 := by
    rw [value, zpow_neg, mul_assoc, mul_inv_cancel₀ (by positivity), mul_one,
      div_eq_iff (by exact_mod_cast scaled_pos.ne')] at scaled_eq
    exact_mod_cast scaled_eq
  have back : ((steps : Int) - 1074 + 1074).toNat = steps := by omega
  rw [whole, roundQuotient_mul m scaled_pos, back, value]
  refine ⟨?_, magnitude_code less leads⟩
  have codes_eq : codes = 2047 * binade := rfl
  have blocks : (steps + 2) * binade ≤ 2047 * binade := Nat.mul_le_mul_right _ (by omega)
  rw [Nat.add_mul] at blocks
  omega

/-- Exact quotients are given without rounding. -/
theorem ofRatio_spec (negative : Bool) {num den : Nat} (positive : 0 < den)
    (exact : IsExact (num / den)) :
    ∃ code, ofRatio negative num den = .finite negative code ∧ magnitude code = num / den := by
  obtain ⟨within, value⟩ := nearestCode_spec positive exact
  exact ⟨⟨nearestCode num den, within⟩, by rw [ofRatio, dif_pos within], value⟩

theorem ofInt_spec {n : Nat} (exact : IsExact n) :
    ∃ code, ofInt n = .finite false code ∧ magnitude code = n := by
  have whole : ((n : Nat) : ℚ) / (1 : Nat) = n := by simp
  obtain ⟨code, is, value⟩ := ofRatio_spec false Nat.one_pos (whole.symm ▸ exact)
  have unsigned : decide ((n : Int) < 0) = false := by simp
  exact ⟨code, by rw [ofInt, Int.natAbs_natCast, unsigned, is], value.trans whole⟩

theorem div_spec (s t : Bool) {a b : Fin codes} (nonzero : magnitude b ≠ 0)
    (exact : IsExact (magnitude a / magnitude b)) :
    ∃ code, div (.finite s a) (.finite t b) = .finite (s != t) code ∧
      magnitude code = magnitude a / magnitude b := by
  have significant : significand b ≠ 0 := by
    rintro zero
    rw [magnitude, zero] at nonzero
    simp at nonzero
  have divisor : ¬b.val = 0 := by
    rintro zero
    rw [zero] at significant
    exact significant rfl
  obtain ⟨positive, value⟩ := scaled_spec (significand a) (Nat.pos_of_ne_zero significant)
    (exponent a - exponent b)
  have quotient : magnitude a / magnitude b =
      significand a / significand b * 2 ^ (exponent a - exponent b) := by
    rw [magnitude, magnitude, zpow_sub₀ two_ne_zero]
    field_simp
  rw [quotient, ← value] at exact ⊢
  rw [div, if_neg divisor]
  exact ofRatio_spec _ positive exact

end Rollup.Binary64

namespace Rollup.Number

/-- A whole number is written in its digits. -/
theorem fixed_whole (negative : Bool) {code : Fin Binary64.codes} {n : Nat}
    (whole : Binary64.magnitude code = n) :
    fixed 0 (.finite negative code) = String.ofList (sign negative (Nat.toDigits 10 n)) := by
  obtain ⟨positive, value⟩ := Binary64.scaled_spec (Binary64.significand code * Nat.pow 10 0)
    Nat.one_pos (Binary64.exponent code)
  have units : (Binary64.scaled (Binary64.significand code * Nat.pow 10 0) 1
      (Binary64.exponent code)).1 = n * (Binary64.scaled (Binary64.significand code * Nat.pow 10 0)
        1 (Binary64.exponent code)).2 := by
    have same : ((Binary64.significand code * Nat.pow 10 0 : Nat) : ℚ) / (1 : Nat) *
        2 ^ Binary64.exponent code = n := by
      rw [← whole, Binary64.magnitude]
      simp
    rw [same, div_eq_iff (by exact_mod_cast positive.ne')] at value
    exact_mod_cast value
  rw [fixed]
  dsimp only
  rw [units, Binary64.roundQuotient_mul n positive]
  have digits : 0 < (Nat.toDigits 10 n).length := List.length_pos_of_ne_nil Nat.toDigits_ne_nil
  simp [placed, zeros, Nat.sub_eq_zero_of_le digits]

end Rollup.Number
