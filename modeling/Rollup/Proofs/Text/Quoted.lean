import Rollup.Proofs.Number.Digits
import Rollup.Text.Quoted

/-! Quoted texts are read back.

A mark between the quotes is written twice, so the first mark without a partner is the closing one,
unless a mark stands right behind it. What is found up to there is what was written, so a text has
one quotation at its front, whatever is quoted and whatever follows.
-/

set_option autoImplicit false

namespace Rollup.Text
variable {text rest : List Char} {mark : Char}

theorem stops_of_head? (other : text.head? ≠ some mark) : Stops (· == mark) text := by
  intro c first
  rw [beq_eq_false_iff_ne]
  rintro rfl
  exact other first

theorem splitQuoted_double (stops : Stops (· == mark) rest) :
    splitQuoted mark (double mark text ++ mark :: rest) = some (double mark text, rest) := by
  induction text with
  | nil =>
    cases rest with
    | nil => simp [double, splitQuoted]
    | cons d rest =>
      have other : d ≠ mark := by simpa using stops d rfl
      simp [double, splitQuoted, other]
  | cons c text ih =>
    rw [double]
    by_cases is : c = mark
    · rw [if_pos is, List.cons_append, List.cons_append, splitQuoted, if_pos rfl, if_pos rfl, ih]
      rfl
    · obtain ⟨d, tail, next⟩ : ∃ d tail, double mark text ++ mark :: rest = d :: tail :=
        List.exists_cons_of_ne_nil (by simp)
      rw [if_neg is, List.cons_append, next, splitQuoted, if_neg is, ← next, ih]
      rfl

theorem undouble_double (text : List Char) : undouble mark (double mark text) = text := by
  induction text with
  | nil => rfl
  | cons c text ih =>
    rw [double]
    by_cases is : c = mark
    · rw [if_pos is, undouble, if_pos rfl, if_pos rfl, ih, is]
    · rw [if_neg is]
      cases next : double mark text with
      | nil =>
        rw [next] at ih
        rw [undouble, ← ih]
        rfl
      | cons d tail => rw [undouble, if_neg is, ← next, ih]

theorem exists_double_of_splitQuoted {body : List Char}
    (found : splitQuoted mark text = some (body, rest)) : ∃ inner, body = double mark inner := by
  fun_induction splitQuoted mark text generalizing body rest with
  | case1 => cases found
  | case2 =>
    cases found
    exact ⟨[], rfl⟩
  | case3 => cases found
  | case4 _ ih =>
    obtain ⟨⟨inside, tail⟩, read, same⟩ := Option.map_eq_some_iff.mp found
    obtain ⟨inner, rfl⟩ := ih read
    cases same
    exact ⟨mark :: inner, by simp [double]⟩
  | case5 =>
    cases found
    exact ⟨[], rfl⟩
  | case6 c d rest other ih =>
    obtain ⟨⟨inside, tail⟩, read, same⟩ := Option.map_eq_some_iff.mp found
    obtain ⟨inner, rfl⟩ := ih read
    cases same
    exact ⟨c :: inner, by simp [double, other]⟩

theorem toList_quote_append (a s : String) :
    (quote mark a ++ s).toList = mark :: (double mark a.toList ++ mark :: s.toList) := by
  simp [quote, quoteChars]

/-- Equal texts with quotations at their fronts quote the same and go on in the same way. -/
theorem quote_append_inj {a b s t : String} (left : Stops (· == mark) s.toList)
    (right : Stops (· == mark) t.toList) (same : quote mark a ++ s = quote mark b ++ t) :
    a = b ∧ s = t := by
  have chars := congrArg String.toList same
  rw [toList_quote_append, toList_quote_append, List.cons_inj_right] at chars
  have read := congrArg (splitQuoted mark) chars
  rw [splitQuoted_double left, splitQuoted_double right] at read
  obtain ⟨doubled, rest⟩ := Prod.mk.inj (Option.some.inj read)
  have names := congrArg (undouble mark) doubled
  rw [undouble_double, undouble_double] at names
  exact ⟨String.toList_inj.mp names, String.toList_inj.mp rest⟩

end Rollup.Text
