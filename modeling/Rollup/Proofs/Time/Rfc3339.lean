import Rollup.Proofs.Number.Digits
import Rollup.Proofs.Time.Civil
import Rollup.Time.Rfc3339

/-! Instants that are written are read again.

Every number in the text of an instant has as many digits as the reader takes, or is followed by
something else, and nothing in it is a blank. So the reader finds the parts that were written, and
they are those of one instant only, since the years and the seconds of an instant that has been read
are within the range of what can be written.
-/

set_option autoImplicit false

namespace Rollup.Rfc3339

open Number

/-! ## Digits -/

theorem isDigit_of_mem_padded {width n : Nat} {c : Char} (member : c ∈ padded width n) :
    isDigit c = true := by
  rcases List.mem_append.mp member with zero | digit
  · rw [List.eq_of_mem_replicate zero]
    rfl
  · exact isDigit_of_mem_toDigits digit

theorem padded_ne_nil (width n : Nat) : padded width n ≠ [] :=
  List.append_ne_nil_of_right_ne_nil _ Nat.toDigits_ne_nil

theorem ofDigits_padded (width n : Nat) : ofDigits (padded width n) = n :=
  (ofDigits_zeros _ _).trans (ofDigits_toDigits n)

theorem length_padded {width n : Nat} (positive : 0 < width) (fits : n < 10 ^ width) :
    (padded width n).length = width := by
  have short := (Nat.length_toDigits_le_iff (by decide) positive).mpr fits
  simp only [padded, List.length_append, List.length_replicate]
  omega

theorem readDigits?_append {width : Nat} {digits rest : List Char}
    (all : ∀ c ∈ digits, isDigit c = true) (some_ : digits ≠ []) (fits : digits.length ≤ width)
    (stops : digits.length = width ∨ Stops isDigit rest) :
    readDigits? width (digits ++ rest) = some (ofDigits digits, rest) := by
  have stops : Stops isDigit (rest.take (width - digits.length)) := by
    rcases stops with full | stops
    · rw [full, Nat.sub_self]
      exact stops_nil
    · cases rest with
      | nil => rw [List.take_nil]; exact stops_nil
      | cons c rest =>
        cases width - digits.length with
        | zero => exact stops_nil
        | succ more => exact stops_cons (stops c rfl)
  have taken : ((digits ++ rest).take width).takeWhile isDigit = digits := by
    rw [List.take_append, List.take_of_length_le fits, takeWhile_append_of_stops all stops]
  rw [readDigits?, taken]
  cases digits with
  | nil => exact absurd rfl some_
  | cons c digits => simp

theorem readDigits?_padded {width n : Nat} (positive : 0 < width) (fits : n < 10 ^ width)
    (rest : List Char) : readDigits? width (padded width n ++ rest) = some (n, rest) := by
  have length := length_padded positive fits
  rw [readDigits?_append (fun c => isDigit_of_mem_padded) (padded_ne_nil _ _) length.le
    (.inl length), ofDigits_padded]

theorem isDigit_head_padded {width n : Nat} {rest : List Char} {c : Char}
    (first : c ∈ (padded width n ++ rest).head?) : isDigit c = true := by
  rw [head?_append_of_ne_nil (padded_ne_nil _ _)] at first
  exact isDigit_of_mem_padded (List.mem_of_mem_head? first)

theorem stops_padded (width n : Nat) (rest : List Char) :
    Stops Text.isBlank (padded width n ++ rest) := fun _ first =>
  isBlank_of_isDigit (isDigit_head_padded first)

theorem trimStart_of_stops {text : List Char} (stops : Stops Text.isBlank text) :
    Text.trimStart text = text :=
  dropWhile_of_stops stops

theorem readPart?_padded {n : Nat} (fits : n < 100) (rest : List Char) :
    readPart? (padded 2 n ++ rest) = some (n, rest) := by
  rw [readPart?, trimStart_of_stops (stops_padded _ _ _), readDigits?_padded (by decide) fits]

theorem readMark?_self {mark : Char} (shown : Text.isBlank mark = false) (rest : List Char) :
    readMark? mark (mark :: rest) = some rest := by
  rw [readMark?, trimStart_of_stops (stops_cons shown), Text.dropWord, if_pos (by simp)]
  rfl

/-! ## Dates -/

theorem readYear?_yearText {year : Int} (rest : List Char) (stops : Stops isDigit rest) :
    readYear? (yearText year ++ rest) = some (year, rest) := by
  have signed : ∀ rest', rest' = padded 4 year.natAbs ++ rest →
      readDigits? rest'.length rest' = some (year.natAbs, rest) := by
    rintro _ rfl
    rw [readDigits?_append (fun c => isDigit_of_mem_padded) (padded_ne_nil _ _) (by simp)
      (.inr stops), ofDigits_padded]
  by_cases negative : year < 0
  · have shown : yearText year = '-' :: padded 4 year.natAbs := if_pos negative
    rw [shown, readYear?, List.cons_append, trimStart_of_stops (stops_cons rfl)]
    simp only [signed _ rfl, Option.map_some]
    rw [Int.ofNat_natAbs_of_nonpos negative.le, Int.neg_neg]
  have absolute := Int.natAbs_of_nonneg (Int.not_lt.mp negative)
  by_cases small : year ≤ 9999
  · have shown : yearText year = padded 4 year.natAbs := by
      rw [yearText, if_neg negative, if_pos small]
    rw [shown, readYear?, trimStart_of_stops (stops_padded _ _ _)]
    split
    · rename_i same
      exact absurd (isDigit_head_padded (c := '-') (by rw [same]; rfl)) (by decide)
    · rename_i same
      exact absurd (isDigit_head_padded (c := '+') (by rw [same]; rfl)) (by decide)
    · simp only [readDigits?_padded (by decide) (by omega : year.natAbs < 10 ^ 4), Option.map_some]
      rw [absolute]
  · have shown : yearText year = '+' :: padded 4 year.natAbs := by
      rw [yearText, if_neg negative, if_neg small]
    rw [shown, readYear?, List.cons_append, trimStart_of_stops (stops_cons rfl)]
    simp only [signed _ rfl, Option.map_some]
    rw [absolute]

theorem readDate?_dateText (t : Instant) (rest : List Char) :
    readDate? (dateText t ++ rest) = some (t.date, rest) := by
  have valid : t.date.isValid = true := Date.isValid_ofDays _
  have range := valid
  simp only [Date.isValid, Bool.and_eq_true, decide_eq_true_eq] at range
  obtain ⟨⟨⟨-, month⟩, -⟩, day⟩ := range
  have length : Date.monthLength t.date.year t.date.month ≤ 31 := by
    unfold Date.monthLength
    split <;> split <;> omega
  simp only [dateText, List.append_assoc, List.cons_append]
  rw [readDate?, readYear?_yearText _ (stops_cons rfl)]
  simp only [bind, Option.bind, readMark?_self (rfl : Text.isBlank '-' = false)]
  rw [readPart?_padded (by omega)]
  simp only [readMark?_self (rfl : Text.isBlank '-' = false)]
  rw [readPart?_padded (by omega)]
  simp only [valid, if_true]

/-! ## Times of day -/

/-- The clock can show the time: only the last second of a minute can be followed by a leap
second. -/
structure OnClock (t : Instant) : Prop where
  nanos : t.nanos < 2 * nanosPerSecond
  leap : nanosPerSecond ≤ t.nanos → t.secondOfDay % 60 = 59

theorem readFraction?_fractionText {nanos : Nat} (fits : nanos < nanosPerSecond) {rest : List Char}
    (stops : Stops isDigit rest) (point : Stops (· == '.') rest) :
    readFraction? (fractionText nanos ++ rest) = some (nanos, rest) := by
  have read : ∀ {width n : Nat}, 0 < width → width ≤ 9 → n < 10 ^ width →
      readFraction? ('.' :: padded width n ++ rest) = some (n * 10 ^ (9 - width), rest) := by
    intro width n positive within fits
    have length := length_padded positive fits
    rw [List.cons_append, readFraction?, readDigits?_append (fun c => isDigit_of_mem_padded)
      (padded_ne_nil _ _) (length.le.trans within) (.inr stops), ofDigits_padded]
    have taken : (padded width n ++ rest).length - rest.length = width := by
      simp [length]
    have nothing : rest.dropWhile isDigit = rest := dropWhile_of_stops stops
    simp only [Option.map_some, taken, nothing]
    rfl
  unfold nanosPerSecond at fits
  rw [fractionText]
  split
  · rename_i zero
    rw [List.nil_append, readFraction?.eq_def]
    split
    · exact absurd (point '.' rfl) (by decide)
    · rw [zero]
  split
  · rw [read (by decide) (by decide) (by omega)]
    congr 2
    omega
  split
  · rw [read (by decide) (by decide) (by omega)]
    congr 2
    omega
  · rw [read (by decide) (by decide) (by omega)]
    simp

theorem readTime?_append {t : Instant} (fits : t.nanos < 2 * nanosPerSecond)
    {text rest : List Char} {fraction : Nat} (read : readFraction? text = some (fraction, rest)) :
    readTime? (timeText t ++ text) =
      some (if t.clockSecond = 60 then
          (t.secondOfDay - t.secondOfDay % 60 + 59, nanosPerSecond + fraction)
        else (t.secondOfDay - t.secondOfDay % 60 + t.clockSecond, fraction), rest) := by
  have day : t.secondOfDay < 86400 := by
    unfold Instant.secondOfDay secondsPerDay
    omega
  have second : t.clockSecond ≤ 60 := by
    unfold Instant.clockSecond
    unfold nanosPerSecond at fits ⊢
    omega
  have inRange : (decide (23 < t.secondOfDay / 3600) || decide (59 < t.secondOfDay / 60 % 60) ||
      decide (60 < t.clockSecond)) = false := by
    simp only [Bool.or_eq_false_iff, decide_eq_false_iff_not]
    omega
  have minutes : t.secondOfDay / 3600 * 3600 + t.secondOfDay / 60 % 60 * 60 =
      t.secondOfDay - t.secondOfDay % 60 := by omega
  simp only [timeText, List.append_assoc, List.cons_append]
  rw [readTime?, readPart?_padded (by omega)]
  simp only [bind, Option.bind, readMark?_self (rfl : Text.isBlank ':' = false)]
  rw [readPart?_padded (by omega)]
  simp only [readMark?_self (rfl : Text.isBlank ':' = false)]
  rw [readPart?_padded (by omega)]
  simp only [read, inRange, Bool.false_eq_true, if_false, minutes]
  split <;> rfl

theorem readTime?_timeText {t : Instant} (clock : OnClock t) {rest : List Char}
    (stops : Stops isDigit rest) (point : Stops (· == '.') rest) :
    readTime? (timeText t ++ fractionText t.clockNanos ++ rest) =
      some ((t.secondOfDay, t.nanos), rest) := by
  have nanos : t.clockNanos < nanosPerSecond := Nat.mod_lt _ (by decide)
  rw [List.append_assoc,
    readTime?_append clock.nanos (readFraction?_fractionText nanos stops point)]
  -- The clock shows sixty seconds just in a leap second.
  have leap := clock.leap
  have bound := clock.nanos
  unfold Instant.clockSecond Instant.clockNanos
  unfold nanosPerSecond at leap bound ⊢
  split
  · congr 3 <;> omega
  · congr 3 <;> omega

/-! ## Reading -/

theorem lt_of_readDigits? {width n : Nat} {text rest : List Char}
    (read : readDigits? width text = some (n, rest)) :
    n < 10 ^ (text.length - rest.length) ∧ text.length - rest.length ≤ width := by
  rw [readDigits?] at read
  split at read
  · cases read
  · cases read
    have prefix_ := List.takeWhile_prefix (l := text.take width) isDigit
    have within := (prefix_.trans (List.take_prefix width text)).length_le
    have short := prefix_.length_le
    rw [List.length_take] at short
    rw [List.length_drop, Nat.sub_sub_self within]
    exact ⟨ofDigits_lt (List.all_eq_true.mp List.all_takeWhile), by omega⟩

theorem lt_of_readFraction? {text rest : List Char} {nanos : Nat}
    (read : readFraction? text = some (nanos, rest)) : nanos < nanosPerSecond := by
  unfold readFraction? at read
  split at read
  · obtain ⟨⟨n, tail⟩, digits, same⟩ := Option.map_eq_some_iff.mp read
    cases same
    obtain ⟨below, within⟩ := lt_of_readDigits? digits
    calc
      _ < 10 ^ _ * 10 ^ _ := Nat.mul_lt_mul_of_pos_right below (Nat.pow_pos (by decide))
      _ = 10 ^ 9 := by rw [← Nat.pow_add, Nat.add_sub_cancel' within]
  · cases read
    decide

theorem clock_of_readTime? {text rest : List Char} {second nanos : Nat}
    (read : readTime? text = some ((second, nanos), rest)) :
    nanos < 2 * nanosPerSecond ∧ (nanosPerSecond ≤ nanos → second % 60 = 59) := by
  simp only [readTime?, bind, Option.bind_eq_some_iff] at read
  obtain ⟨⟨hour, _⟩, -, _, -, ⟨minute, _⟩, -, _, -, ⟨shown, _⟩, -, ⟨fraction, _⟩, digits, read⟩ :=
    read
  have below := lt_of_readFraction? digits
  split at read
  · cases read
  · split at read
    · cases read
      exact ⟨by omega, fun _ => by omega⟩
    · cases read
      exact ⟨by omega, fun passed => absurd below (Nat.not_lt.mpr passed)⟩

theorem minutes_of_readOffset? {text rest : List Char} {ahead : Nat}
    (read : readOffset? text = some (ahead, rest)) : ahead % 60 = 0 := by
  unfold readOffset? at read
  split at read
  · split at read
    · split at read
      · dsimp only at read
        split at read
        · cases read
          omega
        · cases read
      · cases read
    · cases read
  · cases read

theorem minutes_of_readZone? {text rest : List Char} {ahead : Int}
    (read : readZone? text = some (ahead, rest)) : ahead % 60 = 0 := by
  unfold readZone? at read
  split at read
  case h_1 | h_2 =>
    cases read
    rfl
  case h_3 | h_4 | h_5 =>
    obtain ⟨⟨n, tail⟩, offset, same⟩ := Option.map_eq_some_iff.mp read
    have whole := minutes_of_readOffset? offset
    cases same
    omega
  case h_6 =>
    split at read <;> cases read
    rfl
  case h_7 => cases read

/-- An instant that is read lies in the range of years and can be shown by a clock. -/
theorem spec_read? {text : List Char} {t : Instant} (read : read? text = some t) :
    isInRange t = true ∧ OnClock t := by
  simp only [read?, bind, Option.bind_eq_some_iff] at read
  obtain ⟨⟨date, _⟩, -, _, -, ⟨⟨second, nanos⟩, _⟩, time, ⟨ahead, _⟩, zone, read⟩ := read
  obtain ⟨below, leap⟩ := clock_of_readTime? time
  have minutes := minutes_of_readZone? zone
  split at read
  · rename_i accepted
    cases read
    refine ⟨(Bool.and_eq_true_iff.mp accepted).2, below, fun passed => ?_⟩
    have last := leap passed
    unfold Instant.secondOfDay secondsPerDay
    dsimp only
    omega
  · cases read

theorem read?_write {t : Instant} (range : isInRange t = true) (clock : OnClock t) :
    read? (writeWith "Z" t).toList = some t := by
  have days : t.date.toDays = t.seconds / secondsPerDay := Date.toDays_ofDays _
  have text : (writeWith "Z" t).toList =
      dateText t ++ 'T' :: (timeText t ++ fractionText t.clockNanos ++ ['Z']) := by
    rw [writeWith, String.toList_append, String.toList_ofList]
    simp
  rw [text, read?, readDate?_dateText]
  have separated : readSeparator? ('T' :: (timeText t ++ fractionText t.clockNanos ++ ['Z'])) =
      some (timeText t ++ fractionText t.clockNanos ++ ['Z']) := rfl
  have zone : readZone? (Text.trimStart ['Z']) = some (0, []) := rfl
  simp only [bind, Option.bind, separated]
  rw [readTime?_timeText clock (stops_cons rfl) (stops_cons rfl)]
  simp only [zone]
  have same : (⟨t.date.toDays * secondsPerDay + t.secondOfDay - 0, t.nanos⟩ : Instant) = t := by
    have second : (t.secondOfDay : Int) = t.seconds % secondsPerDay :=
      Int.toNat_of_nonneg (Int.emod_nonneg _ (by decide))
    rw [days, second, Int.sub_zero, Int.ediv_mul_add_emod]
  have years := Bool.and_eq_true_iff.mp range
  rw [same, range, years.1, years.2]
  rfl

end Rollup.Rfc3339

namespace Rollup.Instant

structure IsReadable (t : Instant) : Prop where
  range : Rfc3339.isInRange t = true
  clock : Rfc3339.OnClock t

theorem isReadable_of_parse? {text : String} {t : Instant} (read : parse? text = some t) :
    t.IsReadable :=
  let ⟨range, clock⟩ := Rfc3339.spec_read? read
  ⟨range, clock⟩

theorem parse?_render {t : Instant} (readable : t.IsReadable) : parse? t.render = some t :=
  Rfc3339.read?_write readable.range readable.clock

end Rollup.Instant
