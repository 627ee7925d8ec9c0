import Mathlib.Tactic.IntervalCases
import Rollup.Time.Civil

/-! Counting days back and forth.

The days of an era are told apart by years through a count that leaves out the leap days before
them. That count grows with the days, and it is right at both ends of each of the four hundred years
of an era, so it is right between them.
-/

set_option autoImplicit false

namespace Rollup.Date

def daysBefore (year : Int) : Int := 365 * year + year / 4 - year / 100 + year / 400

/-- The days of an era up to one of them, without leap days. -/
def commonDays (day : Int) : Int := day - day / 1460 + day / 36524 - day / 146096

theorem commonDays_mono {a b : Int} (le : a ≤ b) : commonDays a ≤ commonDays b := by
  have quads : a - a / 1460 ≤ b - b / 1460 := by omega
  have centuries : a / 36524 - a / 146096 ≤ b / 36524 - b / 146096 := by omega
  unfold commonDays
  omega

theorem commonDays_ends : ∀ year : Nat, year < 400 →
    365 * (year : Int) ≤ commonDays (daysBefore year) ∧
      commonDays (daysBefore (year + 1) - 1) < 365 * (year + 1 : Int) := by
  intro year inEra
  constructor
  · have era : (year : Int) / 400 = 0 := by omega
    generalize is : daysBefore year = day
    rw [daysBefore, era] at is
    -- Not more leap days are left out than there are before the year.
    have quads : day / 1460 ≤ year / 4 := by omega
    have centuries : year / 100 ≤ day / 36524 := by omega
    have eras : day / 146096 = 0 := by omega
    unfold commonDays
    omega
  · generalize is : daysBefore (year + 1) - 1 = day
    rw [daysBefore] at is
    -- All leap days up to the end of the year are left out.
    have quads : (year + 1) / 4 ≤ day / 1460 := by omega
    have centuries : day / 36524 ≤ (year + 1) / 100 := by omega
    have eras : (year + 1) / 400 ≤ day / 146096 := by omega
    unfold commonDays
    omega

theorem yearOfEra_spec {day year : Int} (start : 0 ≤ day) (stop : day < daysInEra)
    (is : year = commonDays day / 365) :
    0 ≤ year ∧ year < 400 ∧ daysBefore year ≤ day ∧ day < daysBefore (year + 1) := by
  have last : daysBefore 400 = daysInEra := by decide
  have low : 0 ≤ year := by
    have first := commonDays_mono start
    have zero : commonDays 0 = 0 := by decide
    omega
  have high : year < 400 := by
    have final := commonDays_mono (Int.le_sub_one_of_lt stop)
    have top : commonDays (daysInEra - 1) = 145999 := by decide
    omega
  obtain ⟨year, rfl⟩ := Int.eq_ofNat_of_zero_le low
  refine ⟨low, high, ?_, ?_⟩
  · -- A day before the year is in the year before, at the latest.
    by_contra before
    cases year with
    | zero => exact before start
    | succ year =>
      have earlier := commonDays_mono (Int.le_sub_one_of_lt (Int.not_le.mp before))
      have ends := (commonDays_ends year (by omega)).2
      push_cast at earlier ends is
      omega
  · by_contra behind
    rcases Nat.lt_or_ge (year + 1) 400 with more | final
    · have later := commonDays_mono (Int.not_lt.mp behind)
      have ends := (commonDays_ends (year + 1) more).1
      push_cast at later ends is
      omega
    · obtain rfl : year = 399 := by omega
      exact behind (last ▸ stop)

/-! ## Dates -/

/-- A day by its era, the year of the era and the day of the year, each counted from March. -/
structure Parts (days era year day : Int) : Prop where
  count : days + epochShift = era * daysInEra + (daysBefore year + day)
  inEra : 0 ≤ year ∧ year < 400
  inYear : 0 ≤ day ∧ day ≤ 365
  /-- A year counted from March has 366 days if there is a leap day at its end. -/
  leap : day = 365 → isLeapYear (era * 400 + year + 1) = true

def ofParts (era year day : Int) : Date :=
  let month := (5 * day + 2) / 153
  let named := if month < 10 then month + 3 else month - 9
  ⟨era * 400 + year + (if named ≤ 2 then 1 else 0), named.toNat,
    (day - (153 * month + 2) / 5 + 1).toNat⟩

theorem ofDays_eq (days : Int) :
    ∃ era year day, Parts days era year day ∧ ofDays days = ofParts era year day := by
  let dayOfEra := (days + epochShift) % daysInEra
  let year := commonDays dayOfEra / 365
  have start : 0 ≤ dayOfEra := Int.emod_nonneg _ (by decide)
  have stop : dayOfEra < daysInEra := Int.emod_lt_of_pos _ (by decide)
  obtain ⟨low, high, begins, ends⟩ := yearOfEra_spec start stop rfl
  have split := Int.emod_add_mul_ediv (days + epochShift) daysInEra
  have before : daysBefore year = 365 * year + year / 4 - year / 100 := by
    rw [daysBefore]
    omega
  refine ⟨(days + epochShift) / daysInEra, year, dayOfEra - daysBefore year, ⟨?_, ⟨low, high⟩, ?_,
    fun last => ?_⟩, by rw [before]; rfl⟩
  · rw [Int.mul_comm]
    omega
  · rw [daysBefore] at begins ends ⊢
    omega
  · rw [daysBefore] at begins ends last
    simp only [isLeapYear, Bool.and_eq_true, Bool.or_eq_true, beq_iff_eq, bne_iff_ne]
    omega

variable {days era year day : Int}

theorem month_le (parts : Parts days era year day) :
    0 ≤ (5 * day + 2) / 153 ∧ (5 * day + 2) / 153 ≤ 11 := by
  have inYear := parts.inYear
  omega

theorem isValid_ofParts (parts : Parts days era year day) :
    (ofParts era year day).isValid = true := by
  obtain ⟨low, high⟩ := month_le parts
  obtain ⟨first, last⟩ := parts.inYear
  have leap := parts.leap
  rw [ofParts]
  generalize month : (5 * day + 2) / 153 = m at low high
  simp only [isValid, Bool.and_eq_true, decide_eq_true_eq]
  interval_cases m <;> simp [monthLength]
  case «11» =>
    split
    · omega
    · rename_i common
      have short := mt leap common
      omega
  all_goals omega

theorem toDays_ofParts (parts : Parts days era year day) :
    (ofParts era year day).toDays = days := by
  obtain ⟨low, high⟩ := month_le parts
  obtain ⟨first, last⟩ := parts.inYear
  obtain ⟨zero, within⟩ := parts.inEra
  have count := parts.count
  rw [ofParts, toDays]
  generalize month : (5 * day + 2) / 153 = m at low high
  simp only [daysBefore, daysInEra, epochShift] at count ⊢
  interval_cases m <;> simp <;> omega

theorem toDays_ofDays (days : Int) : (ofDays days).toDays = days := by
  obtain ⟨era, year, day, parts, same⟩ := ofDays_eq days
  rw [same, toDays_ofParts parts]

theorem isValid_ofDays (days : Int) : (ofDays days).isValid = true := by
  obtain ⟨era, year, day, parts, same⟩ := ofDays_eq days
  rw [same, isValid_ofParts parts]

end Rollup.Date
