import Mathlib.Algebra.Group.Nat.Defs
import Rollup.Number.Word
import Rollup.Text.Character

/-! Numbers that are written in decimal digits are read again.

A reader that takes digits as long as there are any takes all that are written, if something else
follows them.
-/

set_option autoImplicit false

namespace Rollup

/-- A text does not begin with a character of a class. -/
def Stops {α : Type} (p : α → Bool) (rest : List α) : Prop := ∀ c ∈ rest.head?, p c = false

section
variable {α : Type} {p : α → Bool} {xs rest : List α}

theorem stops_nil : Stops p [] := fun _ member => nomatch member

theorem stops_cons {c : α} (stop : p c = false) : Stops p (c :: rest) := by
  intro d member
  obtain rfl := Option.some.inj member
  exact stop

theorem head?_append_of_ne_nil (some_ : xs ≠ []) : (xs ++ rest).head? = xs.head? := by
  cases xs with
  | nil => exact absurd rfl some_
  | cons x xs => rfl

theorem takeWhile_append_of_stops (all : ∀ x ∈ xs, p x = true) (stops : Stops p rest) :
    (xs ++ rest).takeWhile p = xs := by
  rw [List.takeWhile_append_of_pos all]
  cases rest with
  | nil => simp
  | cons c rest => rw [List.takeWhile_cons, stops c rfl]; simp

theorem dropWhile_of_stops (stops : Stops p rest) : rest.dropWhile p = rest := by
  cases rest with
  | nil => rfl
  | cons c rest => rw [List.dropWhile_cons, stops c rfl]; simp

theorem dropWhile_append_of_stops (all : ∀ x ∈ xs, p x = true) (stops : Stops p rest) :
    (xs ++ rest).dropWhile p = rest := by
  rw [List.dropWhile_append_of_pos all, dropWhile_of_stops stops]

end

namespace Number

theorem isBlank_of_isDigit {c : Char} (digit : isDigit c = true) : Text.isBlank c = false := by
  simp only [isDigit, Bool.and_eq_true, decide_eq_true_eq] at digit
  have zero : '0'.toNat = 48 := rfl
  have nine : '9'.toNat = 57 := rfl
  simp only [Text.isBlank, Bool.or_eq_false_iff, Bool.and_eq_false_iff, decide_eq_false_iff_not,
    beq_eq_false_iff_ne]
  omega

theorem isDigit_of_mem_toDigits {n : Nat} {c : Char} (member : c ∈ Nat.toDigits 10 n) :
    isDigit c = true := by
  have digit := Nat.isDigit_of_mem_toDigits (by decide) (Nat.le_refl 10) member
  simpa [isDigit, Char.isDigit, UInt32.le_iff_toNat_le] using digit

theorem isDigit_of_toDigits_append {n : Nat} {rest tail : List Char} {c : Char}
    (same : Nat.toDigits 10 n ++ rest = c :: tail) : isDigit c = true := by
  have first := congrArg List.head? same
  rw [head?_append_of_ne_nil Nat.toDigits_ne_nil] at first
  exact isDigit_of_mem_toDigits (List.mem_of_mem_head? first)

theorem all_isDigit_toDigits (n : Nat) : (Nat.toDigits 10 n).all isDigit = true :=
  List.all_eq_true.mpr fun _ => isDigit_of_mem_toDigits

@[simp] theorem ofDigits_toDigits (n : Nat) : ofDigits (Nat.toDigits 10 n) = n :=
  Nat.ofDigitChars_ten_toDigits

@[simp] theorem readNat?_toDigits (n : Nat) : readNat? (Nat.toDigits 10 n) = some n := by
  have some_ : (Nat.toDigits 10 n).isEmpty = false := by simp [Nat.toDigits_ne_nil]
  rw [readNat?, some_, all_isDigit_toDigits, ofDigits_toDigits]
  rfl

theorem digitValue_lt {c : Char} (digit : isDigit c = true) : digitValue c < 10 := by
  simp only [isDigit, Bool.and_eq_true, decide_eq_true_eq] at digit
  have nine : '9'.toNat = '0'.toNat + 9 := rfl
  rw [digitValue]
  omega

theorem ofDigits_lt {digits : List Char} (all : ∀ c ∈ digits, isDigit c = true) :
    ofDigits digits < 10 ^ digits.length := by
  -- Read from the left, a digit is added behind the number that is there.
  have go : ∀ n, digits.foldl (fun n c => 10 * n + digitValue c) n <
      (n + 1) * 10 ^ digits.length := by
    induction digits with
    | nil => simp
    | cons c rest ih =>
      intro n
      have digit := digitValue_lt (all c List.mem_cons_self)
      have tail := ih (fun c member => all c (List.mem_cons_of_mem _ member))
        (10 * n + digitValue c)
      have room : 10 * n + digitValue c + 1 ≤ (n + 1) * 10 := by omega
      calc
        _ < (10 * n + digitValue c + 1) * 10 ^ rest.length := tail
        _ ≤ (n + 1) * 10 * 10 ^ rest.length := Nat.mul_le_mul_right _ room
        _ = (n + 1) * 10 ^ (rest.length + 1) := by rw [Nat.pow_succ', Nat.mul_assoc]
  simpa [ofDigits] using go 0

theorem ofDigits_zeros (count : Nat) (digits : List Char) :
    ofDigits (List.replicate count '0' ++ digits) = ofDigits digits := by
  induction count with
  | zero => rfl
  | succ count ih => exact ih

theorem head_toDigits {n : Nat} (positive : 0 < n) : ∀ c ∈ (Nat.toDigits 10 n).head?, c ≠ '0' := by
  induction n using Nat.strongRecOn with
  | _ n ih =>
    by_cases single : n < 10
    · rw [Nat.toDigits_of_lt_base single]
      intro c member
      obtain rfl := Option.some.inj member
      intro zero
      have value := ofDigits_toDigits n
      rw [Nat.toDigits_of_lt_base single, zero] at value
      simp [ofDigits, digitValue] at value
      omega
    · rw [Nat.toDigits_of_base_le (by decide) (Nat.le_of_not_lt single)]
      intro c member
      refine ih (n / 10) (by omega) (by omega) c ?_
      rwa [head?_append_of_ne_nil Nat.toDigits_ne_nil] at member

theorem toList_repr (n : Nat) : (Nat.repr n).toList = Nat.toDigits 10 n := by
  rw [Nat.repr_eq_ofList_toDigits, String.toList_ofList]

theorem toList_toString_negSucc (n : Nat) :
    (toString (Int.negSucc n)).toList = '-' :: Nat.toDigits 10 (n + 1) := by
  show ("-" ++ Nat.repr (n + 1)).toList = _
  rw [String.toList_append, toList_repr]
  rfl

theorem readInt?_of_digits {text : List Char} (digits : ∀ c ∈ text, isDigit c = true) :
    readInt? text = (readNat? text).map fun n => (n : Int) := by
  unfold readInt?
  split
  · exact absurd (digits '-' List.mem_cons_self) (by decide)
  · exact absurd (digits '+' List.mem_cons_self) (by decide)
  · rfl

@[simp] theorem readInt?_toString (n : Int) : readInt? (toString n).toList = some n := by
  cases n with
  | ofNat n =>
    show readInt? (Nat.repr n).toList = _
    rw [toList_repr, readInt?_of_digits fun c => isDigit_of_mem_toDigits,
      readNat?_toDigits]
    rfl
  | negSucc n =>
    rw [toList_toString_negSucc, readInt?, readNat?_toDigits]
    rfl

end Number

end Rollup
