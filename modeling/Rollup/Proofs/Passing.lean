import Rollup.Proofs.Farthest

/-! What readers come past.

A reader comes past certain tokens if, whatever is behind them, it comes as far as their end, be it
on a way that it goes back on. Of a sequence the first part does, or it reads what it is followed by
the second one behind; and a list is followed item by item.
-/

set_option autoImplicit false

namespace Rollup.Reader

variable {τ α β : Type}

/-- A reader comes past certain tokens whatever is behind them. -/
def Passes (reader : Reader τ α) (taken : List τ) : Prop :=
  ∀ behind, reader.leaves (taken ++ behind) ≤ behind.length

variable {reader first second : Reader τ α} {next : α → Reader τ β} {taken : List τ} {value : α}

theorem Viable.passes_nil {Begins : List τ → Prop} (viable : Viable reader Begins) :
    Passes reader [] := viable.leaves_le

theorem Passes.bind (passes : Passes first taken) : Passes (first >>= next) taken :=
  fun behind => Nat.le_trans leaves_bind_le_first (passes behind)

theorem Passes.map (f : α → β) (passes : Passes reader taken) : Passes (f <$> reader) taken :=
  fun behind => Nat.le_trans (leaves_map_le f) (passes behind)

theorem Passes.optional (passes : Passes reader taken) : Passes (optional reader) taken :=
  fun behind => Nat.le_trans leaves_optional_le (passes behind)

theorem Passes.orElse (passes : Passes first taken) : Passes (orElse first second) taken :=
  fun behind => Nat.le_trans leaves_orElse_le_first (passes behind)

theorem passes_orElse (stopped : ∀ behind, first.reads (taken ++ behind) = none)
    (passes : Passes second taken) : Passes (orElse first second) taken :=
  fun behind => Nat.le_trans (leaves_orElse_le_second (stopped behind)) (passes behind)

theorem passes_choice (before : List (Reader τ α)) {after : List (Reader τ α)}
    (stopped : ∀ other ∈ before, ∀ behind, other.reads (taken ++ behind) = none)
    (passes : Passes reader taken) : Passes (choice (before ++ reader :: after)) taken :=
  fun behind => Nat.le_trans
    (leaves_choice_le before fun other member => stopped other member behind) (passes behind)

theorem passes_select {value? : τ → Option α} {token : τ} (found : value? token = some value) :
    Passes (select value?) [token] :=
  fun _ => Nat.le_of_eq (leaves_select found)

theorem passes_just [DecidableEq τ] (token : τ) : Passes (just token) [token] :=
  fun behind => Nat.le_of_eq (leaves_just token behind)

section Signs

variable [DecidableEq τ] {token : τ} {operand : Reader τ α} {apply : α → α}

theorem Passes.unsigned (passes : Passes operand taken)
    (unsigned : ∀ behind, (just token).reads (taken ++ behind) = none) :
    Passes (foldr (just token) operand apply) taken :=
  fun behind => Nat.le_trans (leaves_foldr_of_unsigned (unsigned behind)) (passes behind)

theorem Passes.signed (passes : Passes (foldr (just token) operand apply) taken) :
    Passes (foldr (just token) operand apply) (token :: taken) :=
  fun behind => Nat.le_trans leaves_foldr_cons (passes behind)

end Signs

/-! ## Sequences -/

theorem initial_append {xs ys : List τ} (initial : taken <+: xs ++ ys) :
    taken <+: xs ∨ ∃ more, more ≠ [] ∧ taken = xs ++ more ∧ more <+: ys := by
  rcases List.prefix_or_prefix_of_prefix initial (List.prefix_append xs ys) with within | beyond
  · exact .inl within
  · obtain ⟨more, rfl⟩ := beyond
    by_cases empty : more = []
    · exact .inl (by simp [empty])
    · exact .inr ⟨more, empty, rfl, (List.prefix_append_right_inj xs).mp initial⟩

theorem initial_cons {token : τ} {tail : List τ} (initial : taken <+: token :: tail)
    (nonempty : taken ≠ []) : ∃ front, taken = token :: front ∧ front <+: tail := by
  rcases List.prefix_cons_iff.mp initial with empty | within
  · exact absurd empty nonempty
  · exact within

theorem initial_singleton {token : τ} (initial : taken <+: [token]) (nonempty : taken ≠ []) :
    taken = [token] := by
  obtain ⟨front, rfl, nothing⟩ := initial_cons initial nonempty
  rw [List.prefix_nil.mp nothing]

theorem passes_bind {head tail : List τ} (value : α) (initial : taken <+: head ++ tail)
    (start : taken <+: head → Passes first taken)
    (later : ∀ more, more ≠ [] → more <+: tail → taken = head ++ more →
      (∀ behind, first.reads (head ++ (more ++ behind)) = some (value, more ++ behind)) ∧
        Passes (next value) more) : Passes (first >>= next) taken := by
  rcases initial_append initial with within | ⟨more, some_, split, beyond⟩
  · exact (start within).bind
  · obtain ⟨read, passes⟩ := later more some_ beyond split
    intro behind
    rw [split, List.append_assoc]
    exact Nat.le_trans (leaves_bind_le_next (read behind)) (passes behind)

theorem passes_select_bind {value? : τ → Option α} {token : τ} {front : List τ}
    (found : value? token = some value) (later : front ≠ [] → Passes (next value) front) :
    Passes (select value? >>= next) (token :: front) := by
  have divided : token :: front <+: [token] ++ front := List.prefix_rfl
  refine passes_bind value divided (fun start => ?_) fun more some_ _ split => ⟨fun _ => ?_, ?_⟩
  · rw [initial_singleton start nofun]
    exact passes_select found
  · exact reads_select_eq_some.mpr ⟨token, rfl, found⟩
  · obtain rfl : front = more := (List.cons.inj split).2
    exact later some_

section Enclosing

variable [DecidableEq τ] {opening closing : τ} {within front : List τ}

theorem passes_just_bind {next : Unit → Reader τ β} (later : front ≠ [] → Passes (next ()) front) :
    Passes (just opening >>= next) (opening :: front) :=
  passes_select_bind (if_pos rfl) later

theorem passes_delimited (value : α) (initial : front <+: within ++ [closing])
    (inner : front <+: within → Passes reader front)
    (read : front = within ++ [closing] → ∀ behind,
      reader.reads (within ++ closing :: behind) = some (value, closing :: behind)) :
    Passes (delimited (just opening) reader (just closing)) (opening :: front) := by
  refine passes_just_bind fun _ => passes_bind value initial inner fun last some_ final split => ?_
  obtain rfl := initial_singleton final some_
  exact ⟨read split, (passes_just closing).bind⟩

end Enclosing

/-! ## Folds -/

section Folds

variable {step : α → Reader τ α} {tokens middle rest : List τ} {further : α}

/-- Reading from these tokens, a fold comes as far as it does from a value with the rest ahead. -/
def Reaches (first : Reader τ α) (step : α → Reader τ α) (tokens : List τ) (value : α)
    (rest : List τ) : Prop :=
  ∃ bound, rest.length ≤ bound ∧
    (foldl first step).leaves tokens ≤ (folding step bound value).leaves rest

theorem Reaches.start (read : first.reads tokens = some (value, rest)) :
    Reaches first step tokens value rest :=
  ⟨rest.length, Nat.le_refl _, leaves_bind_le_next read⟩

theorem Reaches.more (reaches : Reaches first step tokens value middle)
    (stepped : (step value).reads middle = some (further, rest))
    (shorter : rest.length < middle.length) : Reaches first step tokens further rest := by
  obtain ⟨bound, enough, farther⟩ := reaches
  cases bound with
  | zero => omega
  | succ bound => exact ⟨bound, by omega, Nat.le_trans farther (leaves_folding_le stepped)⟩

theorem Reaches.leaves_le (reaches : Reaches first step tokens value rest) (some_ : rest ≠ []) :
    (foldl first step).leaves tokens ≤ (step value).leaves rest := by
  obtain ⟨bound, enough, farther⟩ := reaches
  cases bound with
  | zero => exact absurd (List.length_eq_zero_iff.mp (Nat.le_zero.mp enough)) some_
  | succ bound => exact Nat.le_trans farther leaves_folding_le_step

end Folds

/-! ## Lists -/

section Items

variable {separator : τ} {parts : List (List τ × α)} (Stops : List τ → Prop)
  (between : ∀ behind, Stops (separator :: behind))
include between

theorem stops_continued (initial : taken <+: continued separator parts) (nonempty : taken ≠ [])
    (behind : List τ) : Stops (taken ++ behind) := by
  cases parts with
  | nil => exact absurd (List.prefix_nil.mp initial) nonempty
  | cons part others =>
    rw [continued_cons] at initial
    obtain ⟨front, rfl, -⟩ := initial_cons initial nonempty
    exact between (front ++ behind)

variable [DecidableEq τ] {item : Reader τ α} {size : Nat}
  (read : ∀ part ∈ parts, part.1.length ≤ size → ∀ behind, Stops behind →
    item.reads (part.1 ++ behind) = some (part.2, behind))
  (passes : ∀ part ∈ parts, ∀ front, front <+: part.1 → front.length ≤ size → Passes item front)
  (fits : taken.length ≤ size)
include read passes fits

theorem Reaches.continued {first : Reader τ (List α)} {tokens behind : List τ} {done : List α}
    (initial : taken <+: continued separator parts) (nonempty : taken ≠ [])
    (reaches : Reaches first (another item (just separator)) tokens done (taken ++ behind)) :
    (foldl first (another item (just separator))).leaves tokens ≤ behind.length := by
  induction parts generalizing taken done with
  | nil => exact absurd (List.prefix_nil.mp initial) nonempty
  | cons part others ih =>
    rw [continued_cons] at initial
    obtain ⟨front, rfl, inside⟩ := initial_cons initial nonempty
    rcases initial_append inside with within | ⟨more, some_, rfl, beyond⟩
    · have last : Passes (another item (just separator) done) (separator :: front) :=
        passes_just_bind fun _ =>
          (passes part List.mem_cons_self front within (Nat.le_of_succ_le fits)).bind
      exact Nat.le_trans (reaches.leaves_le nofun) (last behind)
    · simp only [List.length_cons, List.length_append] at fits
      have stops := stops_continued Stops between beyond some_ behind
      have first := read part List.mem_cons_self (by omega) _ stops
      have stepped : (another item (just separator) done).reads
          (separator :: (part.1 ++ more) ++ behind) = some (done ++ [part.2], more ++ behind) := by
        simp [another, first]
      refine ih (fun other member => read other (List.mem_cons_of_mem _ member))
        (fun other member => passes other (List.mem_cons_of_mem _ member)) (by omega) beyond some_
        (reaches.more stepped ?_)
      simp only [List.cons_append, List.length_cons, List.length_append]
      omega

theorem passes_separated (initial : taken <+: listed separator parts) (some_ : parts ≠ []) :
    Passes (separated item (just separator)) taken := by
  intro behind
  cases parts with
  | nil => exact absurd rfl some_
  | cons part others =>
    rw [listed_cons] at initial
    rcases initial_append initial with within | ⟨more, nonempty, rfl, beyond⟩
    · exact ((passes part List.mem_cons_self taken within fits).map _).bind behind
    · rw [List.length_append] at fits
      have stops := stops_continued Stops between beyond nonempty behind
      have first := read part List.mem_cons_self (by omega) _ stops
      have started : (List.singleton <$> item).reads (part.1 ++ more ++ behind) =
          some ([part.2], more ++ behind) := by
        simp [first, List.singleton]
      exact Reaches.continued Stops between
        (fun other member => read other (List.mem_cons_of_mem _ member))
        (fun other member => passes other (List.mem_cons_of_mem _ member)) (by omega) beyond
        nonempty (.start started)

end Items

end Rollup.Reader
