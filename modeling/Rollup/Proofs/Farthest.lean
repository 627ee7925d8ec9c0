import Rollup.Proofs.Reader

/-! How far readers come.

Beside what it reads, a reader tells how many tokens it leaves behind the farthest place that it
came to, on whichever way. That the tokens in front of that place begin something is inherited from
the parts, in the manner of soundness.
-/

set_option autoImplicit false

namespace Rollup.Reader

variable {τ α β : Type}

/-- How many tokens are behind the farthest place that a reader comes to. -/
def leaves (reader : Reader τ α) (tokens : List τ) : Nat := (reader tokens).ahead

variable {reader first second : Reader τ α} {next : α → Reader τ β} {tokens rest : List τ}
  {value : α}

theorem leaves_bind_of_none (stopped : first.reads tokens = none) :
    (first >>= next).leaves tokens = first.leaves tokens := by
  cases found : first tokens with
  | mk result ahead =>
    have none_ : result = none := by simpa [reads, found] using stopped
    subst none_
    simp [leaves, bind, found]

theorem leaves_bind_of_some (read : first.reads tokens = some (value, rest)) :
    (first >>= next).leaves tokens = min (first.leaves tokens) ((next value).leaves rest) := by
  cases found : first tokens with
  | mk result ahead =>
    have some_ : result = some (value, rest) := by simpa [reads, found] using read
    subst some_
    simp [leaves, bind, found]

theorem leaves_bind_le_first : (first >>= next).leaves tokens ≤ first.leaves tokens := by
  cases read : first.reads tokens with
  | none => exact Nat.le_of_eq (leaves_bind_of_none read)
  | some found =>
    rw [leaves_bind_of_some read]
    exact Nat.min_le_left _ _

theorem leaves_bind_le_next (read : first.reads tokens = some (value, rest)) :
    (first >>= next).leaves tokens ≤ (next value).leaves rest := by
  rw [leaves_bind_of_some read]
  exact Nat.min_le_right _ _

theorem leaves_map_le (f : α → β) : (f <$> reader).leaves tokens ≤ reader.leaves tokens := by
  change (reader >>= fun value => pure (f value)).leaves tokens ≤ _
  exact leaves_bind_le_first

theorem leaves_orElse_of_some (read : first.reads tokens = some (value, rest)) :
    (orElse first second).leaves tokens = first.leaves tokens := by
  cases found : first tokens with
  | mk result ahead =>
    have some_ : result = some (value, rest) := by simpa [reads, found] using read
    subst some_
    simp [leaves, orElse, found]

theorem leaves_orElse_of_none (stopped : first.reads tokens = none) :
    (orElse first second).leaves tokens = min (first.leaves tokens) (second.leaves tokens) := by
  cases found : first tokens with
  | mk result ahead =>
    have none_ : result = none := by simpa [reads, found] using stopped
    subst none_
    simp [leaves, orElse, found]

theorem leaves_orElse_le_first : (orElse first second).leaves tokens ≤ first.leaves tokens := by
  cases read : first.reads tokens with
  | some found => exact Nat.le_of_eq (leaves_orElse_of_some read)
  | none =>
    rw [leaves_orElse_of_none read]
    exact Nat.min_le_left _ _

theorem leaves_orElse_le_second (stopped : first.reads tokens = none) :
    (orElse first second).leaves tokens ≤ second.leaves tokens := by
  rw [leaves_orElse_of_none stopped]
  exact Nat.min_le_right _ _

theorem leaves_choice_le (before : List (Reader τ α)) {after : List (Reader τ α)}
    (stopped : ∀ other ∈ before, other.reads tokens = none) :
    (choice (before ++ reader :: after)).leaves tokens ≤ reader.leaves tokens := by
  induction before with
  | nil => exact leaves_orElse_le_first
  | cons other before ih =>
    obtain ⟨head, tail⟩ := List.forall_mem_cons.mp stopped
    exact Nat.le_trans (leaves_orElse_le_second head) (ih tail)

theorem leaves_optional_le : (optional reader).leaves tokens ≤ reader.leaves tokens :=
  Nat.le_trans leaves_orElse_le_first (leaves_map_le some)

theorem leaves_select {value? : τ → Option α} {token : τ} (found : value? token = some value) :
    (select value?).leaves (token :: rest) = rest.length := by
  simp [leaves, select, found]

theorem leaves_just [DecidableEq τ] (token : τ) (rest : List τ) :
    (just token).leaves (token :: rest) = rest.length := by
  have found : (if token = token then some () else none) = some () := if_pos rfl
  exact leaves_select found

section Folds

variable {step : α → Reader τ α} {bound : Nat} {more : α}

theorem leaves_folding_le_step :
    (folding step (bound + 1) value).leaves tokens ≤ (step value).leaves tokens :=
  Nat.le_trans leaves_bind_le_first leaves_optional_le

theorem leaves_folding_le (stepped : (step value).reads tokens = some (more, rest)) :
    (folding step (bound + 1) value).leaves tokens ≤ (folding step bound more).leaves rest := by
  have read : (optional (step value)).reads tokens = some (some more, rest) :=
    reads_optional_eq_some.mpr (.inl ⟨more, rfl, stepped⟩)
  exact leaves_bind_le_next read

end Folds

section Prefixes

variable [DecidableEq τ] {token : τ} {operand : Reader τ α} {apply : α → α}

theorem leaves_foldr_of_unsigned (unsigned : (just token).reads tokens = none) :
    (foldr (just token) operand apply).leaves tokens ≤ operand.leaves tokens := by
  change (prefixing (just token) operand apply tokens.length).leaves tokens ≤ _
  cases tokens.length with
  | zero => exact Nat.le_refl _
  | succ bound =>
    have read : (optional (just token)).reads tokens = some (none, tokens) :=
      reads_optional_eq_some.mpr (.inr ⟨rfl, rfl, unsigned⟩)
    exact leaves_bind_le_next read

theorem leaves_foldr_cons : (foldr (just token) operand apply).leaves (token :: tokens) ≤
    (foldr (just token) operand apply).leaves tokens := by
  have read : (optional (just token)).reads (token :: tokens) = some (some (), tokens) :=
    reads_optional_eq_some.mpr (.inl ⟨(), rfl, reads_just_eq_some.mpr rfl⟩)
  exact Nat.le_trans (leaves_bind_le_next read) leaves_bind_le_first

end Prefixes

/-! ## Beginnings -/

/-- Wherever a reader comes to, the tokens in front of that place begin something; and it comes at
least as far as it reads. -/
structure Viable (reader : Reader τ α) (Begins : List τ → Prop) : Prop where
  begins : ∀ tokens, ∃ taken behind, tokens = taken ++ behind ∧
    behind.length = reader.leaves tokens ∧ Begins taken
  reaches {tokens rest : List τ} {value : α} :
    reader.reads tokens = some (value, rest) → reader.leaves tokens ≤ rest.length

variable {Begins : List τ → Prop} {Written : List τ → α → Prop}

theorem Viable.imp {Other : List τ → Prop} (viable : Viable reader Begins)
    (imp : ∀ taken, Begins taken → Other taken) : Viable reader Other where
  begins tokens := by
    obtain ⟨taken, behind, split, left, begins⟩ := viable.begins tokens
    exact ⟨taken, behind, split, left, imp taken begins⟩
  reaches := viable.reaches

theorem Viable.leaves_le (viable : Viable reader Begins) (tokens : List τ) :
    reader.leaves tokens ≤ tokens.length := by
  obtain ⟨taken, behind, rfl, left, -⟩ := viable.begins tokens
  rw [← left, List.length_append]
  exact Nat.le_add_left _ _

theorem viable_pure (start : Begins []) : Viable (pure value : Reader τ α) Begins where
  begins tokens := ⟨[], tokens, rfl, rfl, start⟩
  reaches read := by
    obtain ⟨-, rfl⟩ := reads_pure_eq_some.mp read
    exact Nat.le_refl _

theorem viable_fail (start : Begins []) : Viable (fail : Reader τ α) Begins where
  begins tokens := ⟨[], tokens, rfl, rfl, start⟩
  reaches := nofun

theorem viable_select {value? : τ → Option α} (start : Begins [])
    (each : ∀ token value, value? token = some value → Begins [token]) :
    Viable (select value?) Begins where
  begins tokens := by
    cases tokens with
    | nil => exact ⟨[], [], rfl, rfl, start⟩
    | cons token rest =>
      cases found : value? token with
      | none => exact ⟨[], token :: rest, rfl, by simp [leaves, select, found], start⟩
      | some value =>
        exact ⟨[token], rest, rfl, (leaves_select found).symm, each token value found⟩
  reaches read := by
    obtain ⟨token, rfl, found⟩ := reads_select_eq_some.mp read
    exact Nat.le_of_eq (leaves_select found)

theorem viable_just [DecidableEq τ] {token : τ} (start : Begins []) (one : Begins [token]) :
    Viable (just token) Begins := by
  refine viable_select start fun found _ is => ?_
  by_cases same : found = token
  · exact same ▸ one
  · simp [same] at is

theorem Viable.bind {After : List τ → Prop} (head : Viable first After)
    (sound : Sound first Written)
    (tail : ∀ taken value, Written taken value →
      Viable (next value) fun further => After (taken ++ further)) :
    Viable (first >>= next) After where
  begins tokens := by
    cases read : first.reads tokens with
    | none =>
      rw [leaves_bind_of_none read]
      exact head.begins tokens
    | some found =>
      rw [leaves_bind_of_some read]
      by_cases nearer : first.leaves tokens ≤ (next found.1).leaves found.2
      · rw [Nat.min_eq_left nearer]
        exact head.begins tokens
      · rw [Nat.min_eq_right (Nat.le_of_not_le nearer)]
        obtain ⟨taken, split, written⟩ := sound tokens found.1 found.2 read
        obtain ⟨further, behind, rest, left, begins⟩ :=
          (tail taken found.1 written).begins found.2
        refine ⟨taken ++ further, behind, ?_, left, begins⟩
        rw [split, rest, List.append_assoc]
  reaches read := by
    obtain ⟨found, middle, start, finish⟩ := reads_bind_eq_some.mp read
    obtain ⟨taken, -, written⟩ := sound _ found middle start
    exact Nat.le_trans (leaves_bind_le_next start) ((tail taken found written).reaches finish)

theorem Viable.just_bind [DecidableEq τ] {token : τ} {next : Unit → Reader τ α}
    (start : Begins []) (one : Begins [token])
    (tail : Viable (next ()) fun further => Begins (token :: further)) :
    Viable (just token >>= next) Begins := by
  refine (viable_just start one).bind sound_just ?_
  rintro _ _ rfl
  exact tail

theorem Viable.map (f : α → β) (viable : Viable reader Begins) : Viable (f <$> reader) Begins := by
  have same : ∀ tokens, (f <$> reader).leaves tokens = reader.leaves tokens := by
    intro tokens
    change (reader >>= fun value => pure (f value)).leaves tokens = _
    cases read : reader.reads tokens with
    | none => exact leaves_bind_of_none read
    | some found =>
      rw [leaves_bind_of_some read]
      exact Nat.min_eq_left (viable.reaches read)
  refine ⟨fun tokens => ?_, fun {tokens} _ _ read => ?_⟩
  · rw [same]
    exact viable.begins tokens
  · rw [reads_map, Option.map_eq_some_iff] at read
    obtain ⟨found, read, is⟩ := read
    obtain ⟨-, rfl⟩ := Prod.mk.inj is
    rw [same]
    exact viable.reaches read

theorem Viable.orElse (left : Viable first Begins) (right : Viable second Begins) :
    Viable (orElse first second) Begins where
  begins tokens := by
    cases read : first.reads tokens with
    | some found =>
      rw [leaves_orElse_of_some read]
      exact left.begins tokens
    | none =>
      rw [leaves_orElse_of_none read]
      by_cases nearer : first.leaves tokens ≤ second.leaves tokens
      · rw [Nat.min_eq_left nearer]
        exact left.begins tokens
      · rw [Nat.min_eq_right (Nat.le_of_not_le nearer)]
        exact right.begins tokens
  reaches {tokens rest value} read := by
    rw [reads_orElse, Option.or_eq_some_iff] at read
    cases read with
    | inl read => exact Nat.le_trans leaves_orElse_le_first (left.reaches read)
    | inr read => exact Nat.le_trans (leaves_orElse_le_second read.1) (right.reaches read.2)

theorem Viable.choice {readers : List (Reader τ α)} (start : Begins [])
    (each : ∀ reader ∈ readers, Viable reader Begins) : Viable (choice readers) Begins := by
  induction readers with
  | nil => exact viable_fail start
  | cons reader others ih =>
    have behind : Viable (Reader.choice others) Begins :=
      ih fun other member => each other (List.mem_cons_of_mem _ member)
    exact (each reader List.mem_cons_self).orElse behind

theorem Viable.optional (start : Begins []) (viable : Viable reader Begins) :
    Viable (optional reader) Begins :=
  (viable.map some).orElse (viable_pure start)

theorem Viable.optional_bind {next : Option α → Reader τ β} (start : Begins [])
    (inner : Viable reader Begins) (sound : Sound reader Written)
    (matched : ∀ taken value, Written taken value →
      Viable (next (some value)) fun further => Begins (taken ++ further))
    (unmatched : Viable (next none) Begins) : Viable (Reader.optional reader >>= next) Begins := by
  refine (inner.optional start).bind sound.optional fun taken found known => ?_
  cases found with
  | some value => exact matched taken value known
  | none =>
    subst known
    exact unmatched

theorem viable_folding {step : α → Reader τ α}
    (whole : ∀ taken value, Written taken value → Begins taken)
    (sound : ∀ taken value, Written taken value →
      Sound (step value) fun further more => Written (taken ++ further) more)
    (viable : ∀ taken value, Written taken value →
      Viable (step value) fun further => Begins (taken ++ further))
    (bound : Nat) (taken : List τ) (value : α) (written : Written taken value) :
    Viable (folding step bound value) fun further => Begins (taken ++ further) := by
  have start : Begins (taken ++ []) := by simpa using whole taken value written
  induction bound generalizing taken value with
  | zero => exact viable_pure start
  | succ bound ih =>
    refine Viable.optional_bind start (viable taken value written) (sound taken value written) ?_
      (viable_pure start)
    intro further more written
    have begins : Begins (taken ++ further ++ []) := by simpa using whole _ _ written
    simpa using ih (taken ++ further) more written begins

theorem Viable.foldl {step : α → Reader τ α} (head : Viable first Begins)
    (base : Sound first Written) (whole : ∀ taken value, Written taken value → Begins taken)
    (sound : ∀ taken value, Written taken value →
      Sound (step value) fun further more => Written (taken ++ further) more)
    (viable : ∀ taken value, Written taken value →
      Viable (step value) fun further => Begins (taken ++ further)) :
    Viable (foldl first step) Begins := by
  refine head.bind base fun taken value written => ?_
  have folding := fun bound => viable_folding whole sound viable bound taken value written
  exact ⟨fun tokens => (folding tokens.length).begins tokens,
    fun {tokens} _ _ => (folding tokens.length).reaches⟩

section Signs

variable [DecidableEq τ] {token : τ} {operand : Reader τ α} {apply : α → α}

theorem viable_prefixing (start : Begins []) (base : Viable operand Begins)
    (signed : ∀ taken, Begins taken → Begins (token :: taken)) (bound : Nat) :
    Viable (prefixing (just token) operand apply bound) Begins := by
  induction bound with
  | zero => exact base
  | succ bound ih =>
    refine Viable.optional_bind start (viable_just start (signed [] start)) sound_just ?_ base
    rintro _ _ rfl
    exact (ih.imp signed).map apply

theorem Viable.foldr (start : Begins []) (base : Viable operand Begins)
    (signed : ∀ taken, Begins taken → Begins (token :: taken)) :
    Viable (foldr (just token) operand apply) Begins := by
  have prefixing : ∀ bound, Viable (prefixing (just token) operand apply bound) Begins :=
    viable_prefixing start base signed
  exact ⟨fun tokens => (prefixing tokens.length).begins tokens,
    fun {tokens} _ _ => (prefixing tokens.length).reaches⟩

end Signs

theorem Viable.delimited [DecidableEq τ] {opening closing : τ} {Inside : List τ → Prop}
    {Within : List τ → α → Prop} (start : Begins []) (empty : Inside [])
    (viable : Viable reader Inside) (sound : Sound reader Within)
    (inside : ∀ taken, Inside taken → Begins (opening :: taken))
    (whole : ∀ taken value, Within taken value → Inside taken)
    (closed : ∀ taken value, Within taken value → Begins (opening :: (taken ++ [closing]))) :
    Viable (delimited (just opening) reader (just closing)) Begins := by
  refine Viable.just_bind start (inside [] empty) ?_
  refine (viable.imp inside).bind sound fun taken value written => ?_
  have begins := closed taken value written
  refine Viable.just_bind (by simpa using inside taken (whole taken value written)) begins ?_
  exact viable_pure begins

/-! ## Lists -/

/-- Parts of a list with the token behind each of them, and the beginning of one more. -/
def Listing (separator : τ) (Written : List τ → α → Prop) (Begins : List τ → Prop)
    (taken : List τ) : Prop :=
  ∃ (parts : List (List τ × α)) (last : List τ), (∀ part ∈ parts, Written part.1 part.2) ∧
    Begins last ∧ taken = parts.flatMap (fun part => part.1 ++ [separator]) ++ last

theorem listed_snoc (separator : τ) (parts : List (List τ × α)) (part : List τ × α) :
    listed separator (parts ++ [part]) =
      parts.flatMap (fun part => part.1 ++ [separator]) ++ part.1 := by
  induction parts with
  | nil => simp [listed]
  | cons first others ih =>
    have more : continued separator (others ++ [part]) =
        separator :: listed separator (others ++ [part]) := by
      cases others with
      | nil => simp [listed_cons]
      | cons second others => rw [List.cons_append, continued_cons, listed_cons]
    rw [List.cons_append, listed_cons, more, ih]
    simp

theorem exists_snoc {parts : List α} (nonempty : parts ≠ []) :
    ∃ others last, parts = others ++ [last] :=
  ⟨parts.dropLast, parts.getLast nonempty, (List.dropLast_concat_getLast nonempty).symm⟩

theorem listing_of_isList {separator : τ} {items : List α}
    (whole : ∀ taken value, Written taken value → Begins taken) {taken : List τ}
    (written : IsList separator Written taken items) : Listing separator Written Begins taken := by
  obtain ⟨parts, nonempty, each, rfl, -⟩ := written
  obtain ⟨others, last, rfl⟩ := exists_snoc nonempty
  obtain ⟨before, ends⟩ := List.forall_mem_append.mp each
  exact ⟨others, last.1, before, whole _ _ (ends last (List.mem_singleton_self last)),
    listed_snoc separator others last⟩

section Items

variable [DecidableEq τ] {separator : τ} {item : Reader τ α}

theorem Viable.separated (start : Begins []) (viable : Viable item Begins)
    (sound : Sound item Written) (whole : ∀ taken value, Written taken value → Begins taken) :
    Viable (separated item (just separator)) (Listing separator Written Begins) := by
  have single : ∀ taken, Begins taken → Listing separator Written Begins taken :=
    fun taken begins => ⟨[], taken, nofun, begins, rfl⟩
  -- Behind a list and the token between its items another item can begin.
  have behind : ∀ before items, IsList separator Written before items → ∀ taken, Begins taken →
      Listing separator Written Begins (before ++ separator :: taken) := by
    rintro _ _ ⟨parts, nonempty, each, rfl, -⟩ taken begins
    obtain ⟨others, last, rfl⟩ := exists_snoc nonempty
    refine ⟨others ++ [last], taken, each, begins, ?_⟩
    rw [listed_snoc]
    simp
  refine Viable.foldl ((viable.imp single).map List.singleton) (sound_singleton sound)
    (fun _ _ => listing_of_isList whole) (fun _ _ => sound_another sound) ?_
  intro before items written
  have ready : Listing separator Written Begins (before ++ []) := by
    simpa using listing_of_isList whole written
  refine Viable.just_bind ready (behind before items written [] start) ?_
  exact (viable.imp (behind before items written)).map _

end Items

end Rollup.Reader
