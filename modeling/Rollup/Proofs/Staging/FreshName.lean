import Mathlib.Data.List.Nodup
import Mathlib.Data.List.Perm.Subperm
import Rollup.Staging.FreshName

/-! Fresh names are fresh.

The names that are looked at differ, so among one more of them than there are taken names there is
one that is not taken. Hence the bound of the search is never felt: the search ends where one
without a bound does. Whatever names are reserved between the calls, the numbers of fresh names go
up, and the names of the numbers between them are reserved.
-/

set_option autoImplicit false

namespace Rollup.FreshNames

theorem numbered_injective : Function.Injective numbered := by
  intro m n same
  -- The digits of a number are read back as the number.
  have digits : "_var" ++ m.repr = "_var" ++ n.repr := same
  have read := (String.append_right_inj "_var").mp digits
  rw [Nat.repr_eq_ofList_toDigits, Nat.repr_eq_ofList_toDigits, String.ofList_inj] at read
  have value := congrArg (Nat.ofDigitChars 10 · 0) read
  simpa [Nat.ofDigitChars_toDigits] using value

/-- A search that ends at a taken name has seen taken names only. -/
theorem taken_of_search {taken : List String} {steps n : Nat}
    (found : numbered (search taken steps n) ∈ taken) :
    ∀ k ≤ steps, numbered (n + k) ∈ taken := by
  induction steps generalizing n with
  | zero =>
    intro k bound
    obtain rfl := Nat.le_zero.mp bound
    exact found
  | succ steps ih =>
    rw [search] at found
    split at found
    · rename_i first
      intro k bound
      cases k with
      | zero => exact List.contains_iff_mem.mp first
      | succ k =>
        have later := ih found k (Nat.le_of_succ_le_succ bound)
        rwa [Nat.add_right_comm, Nat.add_assoc] at later
    · rename_i first
      exact absurd (List.contains_iff_mem.mpr found) first

/-- Numbers in a row whose names are taken are no more than the taken names. -/
theorem count_le_of_taken {taken : List String} {n count : Nat}
    (used : ∀ k < count, numbered (n + k) ∈ taken) : count ≤ taken.length := by
  let seen := (List.range count).map fun k => numbered (n + k)
  have distinct : seen.Nodup :=
    List.nodup_range.map fun a b same => Nat.add_left_cancel (numbered_injective same)
  have subset : seen ⊆ taken := by
    intro name member
    obtain ⟨k, bound, rfl⟩ := List.mem_map.mp member
    exact used k (List.mem_range.mp bound)
  have length := (List.subperm_of_subset distinct subset).length_le
  rwa [List.length_map, List.length_range] at length

theorem search_not_taken (taken : List String) (n : Nat) :
    numbered (search taken taken.length n) ∉ taken := by
  -- One more name than there are taken ones cannot all be taken.
  intro found
  refine Nat.not_succ_le_self taken.length (count_le_of_taken (n := n) fun k bound => ?_)
  exact taken_of_search found k (Nat.le_of_lt_succ bound)

theorem fresh_not_taken (names : FreshNames) : names.fresh.1 ∉ names.taken :=
  search_not_taken names.taken names.next

/-! ## The search -/

/-- Looking at the names from a number on, one after the other, ends at a number: the first one
whose name is not taken. -/
inductive Finds (taken : List String) : Nat → Nat → Prop
  | here {n : Nat} (free : numbered n ∉ taken) : Finds taken n n
  | behind {n last : Nat} (used : numbered n ∈ taken) (rest : Finds taken (n + 1) last) :
      Finds taken n last

section
variable {taken : List String} {n last : Nat}

theorem Finds.le (finds : Finds taken n last) : n ≤ last := by
  induction finds with
  | here => exact Nat.le_refl _
  | behind _ _ ih => exact Nat.le_of_succ_le ih

theorem Finds.used (finds : Finds taken n last) :
    ∀ k, n ≤ k → k < last → numbered k ∈ taken := by
  induction finds with
  | here => exact fun k low high => absurd high (Nat.not_lt.mpr low)
  | @behind n last used _ ih =>
    intro k low high
    rcases Nat.eq_or_lt_of_le low with rfl | low
    · exact used
    · exact ih k low high

/-- A bounded search that ends at a free name has not felt its bound. -/
theorem finds_of_free {steps : Nat} (free : numbered (search taken steps n) ∉ taken) :
    Finds taken n (search taken steps n) := by
  induction steps generalizing n with
  | zero => exact .here free
  | succ steps ih =>
    rw [search] at free ⊢
    split
    · rename_i used
      rw [if_pos used] at free
      exact .behind (List.contains_iff_mem.mp used) (ih free)
    · rename_i unused
      exact .here fun used => unused (List.contains_iff_mem.mpr used)

theorem finds_search (taken : List String) (n : Nat) :
    Finds taken n (search taken taken.length n) :=
  finds_of_free (search_not_taken taken n)

end

/-! ## Sequences of calls -/

inductive Call where
  | reserve (name : String)
  | fresh

/-- What a sequence of calls makes of the names. -/
def after (names : FreshNames) : List Call → FreshNames
  | [] => names
  | .reserve name :: calls => (names.reserve name).after calls
  | .fresh :: calls => names.fresh.2.after calls

/-- The names that a sequence of calls is given, the first one first. -/
def given (names : FreshNames) : List Call → List String
  | [] => []
  | .reserve name :: calls => (names.reserve name).given calls
  | .fresh :: calls => names.fresh.1 :: names.fresh.2.given calls

/-- The names that a sequence of calls reserves. -/
def reserved : List Call → List String
  | [] => []
  | .reserve name :: calls => name :: reserved calls
  | .fresh :: calls => reserved calls

/-- How names stand after some of them were chosen by others and some were given. -/
structure Stands (names : FreshNames) (chosen given : List String) : Prop where
  taken : ∀ name, name ∈ names.taken ↔ name ∈ chosen ∨ name ∈ given
  below : ∀ name ∈ given, ∃ n < names.next, name = numbered n
  passed : ∀ n < names.next, numbered n ∈ names.taken

section
variable {names : FreshNames} {chosen earlier : List String}

theorem stands_ofTaken (taken : List String) : Stands (ofTaken taken) taken [] where
  taken _ := by simp [ofTaken]
  below _ member := nomatch member
  passed n bound := absurd bound (Nat.not_lt_zero n)

theorem Stands.reserve (stands : Stands names chosen earlier) (name : String) :
    Stands (names.reserve name) (chosen ++ [name]) earlier where
  taken other := by
    rw [FreshNames.reserve, List.mem_cons, stands.taken, List.mem_append, List.mem_singleton]
    tauto
  below := stands.below
  passed n bound := List.mem_cons_of_mem _ (stands.passed n bound)

theorem Stands.used (stands : Stands names chosen earlier) :
    ∀ k < search names.taken names.taken.length names.next, numbered k ∈ names.taken := by
  intro k before
  by_cases seen : k < names.next
  · exact stands.passed k seen
  · exact (finds_search names.taken names.next).used k (Nat.le_of_not_lt seen) before

theorem Stands.fresh (stands : Stands names chosen earlier) :
    Stands names.fresh.2 chosen (earlier ++ [names.fresh.1]) where
  taken other := by
    rw [FreshNames.fresh, List.mem_cons, stands.taken, List.mem_append, List.mem_singleton]
    tauto
  below name member := by
    rcases List.mem_append.mp member with member | member
    · obtain ⟨n, bound, rfl⟩ := stands.below name member
      have up := (finds_search names.taken names.next).le
      exact ⟨n, Nat.lt_succ_of_lt (Nat.lt_of_lt_of_le bound up), rfl⟩
    · exact ⟨_, Nat.lt_succ_self _, List.mem_singleton.mp member⟩
  passed n bound := by
    rcases Nat.lt_succ_iff_lt_or_eq.mp bound with before | rfl
    · exact List.mem_cons_of_mem _ (stands.used n before)
    · exact List.mem_cons_self

theorem Stands.after (stands : Stands names chosen earlier) (calls : List Call) :
    Stands (names.after calls) (chosen ++ reserved calls) (earlier ++ names.given calls) := by
  induction calls generalizing names chosen earlier with
  | nil => simpa [FreshNames.after, FreshNames.given, reserved] using stands
  | cons call calls ih =>
    cases call with
    | reserve name =>
      simpa [FreshNames.after, FreshNames.given, reserved] using ih (stands.reserve name)
    | fresh => simpa [FreshNames.after, FreshNames.given, reserved] using ih stands.fresh

end

theorem length_taken_after (names : FreshNames) (calls : List Call) :
    (names.after calls).taken.length = names.taken.length + calls.length := by
  induction calls generalizing names with
  | nil => rfl
  | cons call calls ih =>
    cases call with
    | reserve | fresh =>
      rw [after, ih, List.length_cons, Nat.add_comm calls.length, ← Nat.add_assoc]
      rfl

/-- The next name after any calls is found, by a search without a bound, and is new. Its number is
greater than those of all names that were given, a number between them has a name that was chosen
by others, and the number is no greater than the count of names that are taken. -/
theorem fresh_after (initial : List String) (calls : List Call) :
    ∃ n, Finds ((ofTaken initial).after calls).taken ((ofTaken initial).after calls).next n ∧
      ((ofTaken initial).after calls).fresh.1 = numbered n ∧
      numbered n ∉ initial ∧ numbered n ∉ reserved calls ∧
      numbered n ∉ (ofTaken initial).given calls ∧
      (∀ name ∈ (ofTaken initial).given calls, ∃ m < n, name = numbered m) ∧
      (∀ k < n, (∀ m, numbered m ∈ (ofTaken initial).given calls → m < k) →
        numbered k ∈ initial ∨ numbered k ∈ reserved calls) ∧
      n ≤ initial.length + calls.length := by
  have stands := (stands_ofTaken initial).after calls
  have bound := length_taken_after (ofTaken initial) calls
  rw [List.nil_append] at stands
  generalize (ofTaken initial).after calls = names at *
  generalize (ofTaken initial).given calls = given at *
  have finds := finds_search names.taken names.next
  have new : names.fresh.1 ∉ names.taken := names.fresh_not_taken
  rw [stands.taken, List.mem_append, not_or, not_or] at new
  refine ⟨_, finds, rfl, new.1.1, new.1.2, new.2, ?_, ?_, ?_⟩
  · intro name member
    obtain ⟨m, below, rfl⟩ := stands.below name member
    exact ⟨m, Nat.lt_of_lt_of_le below finds.le, rfl⟩
  · intro k before above
    rcases (stands.taken _).mp (stands.used k before) with chosen | member
    · exact List.mem_append.mp chosen
    · exact absurd (above k member) (Nat.lt_irrefl k)
  · rw [← show names.taken.length = initial.length + calls.length from bound]
    exact count_le_of_taken (n := 0) fun k before => by
      rw [Nat.zero_add]
      exact stands.used k before

end Rollup.FreshNames
