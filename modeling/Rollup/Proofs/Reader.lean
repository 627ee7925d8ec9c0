import Rollup.Reader

/-! What readers read.

Soundness is inherited from the parts: each combinator reads what its parts can write, in their
order. Completeness is followed forward: a fold has come to a value when reading on is reading
from that value, and it stops where its step does not match.
-/

set_option autoImplicit false

namespace Rollup.Reader

variable {τ α β : Type}

/-- The value read and the tokens behind it. -/
def reads (reader : Reader τ α) (tokens : List τ) : Option (α × List τ) :=
  (reader tokens).result

@[simp]
theorem reads_pure (value : α) (tokens : List τ) :
    (pure value : Reader τ α).reads tokens = some (value, tokens) := rfl

@[simp]
theorem reads_fail (tokens : List τ) : (fail : Reader τ α).reads tokens = none := rfl

@[simp]
theorem reads_bind (first : Reader τ α) (next : α → Reader τ β) (tokens : List τ) :
    (first >>= next).reads tokens =
      (first.reads tokens).bind fun found => (next found.1).reads found.2 := by
  cases found : first tokens with
  | mk result ahead => cases result <;> simp [reads, bind, found]

@[simp]
theorem reads_map (f : α → β) (reader : Reader τ α) (tokens : List τ) :
    (f <$> reader).reads tokens = (reader.reads tokens).map fun found => (f found.1, found.2) := by
  change (reader >>= fun value => pure (f value)).reads tokens = _
  rw [reads_bind]
  exact Option.map_eq_bind.symm

@[simp]
theorem reads_orElse (first second : Reader τ α) (tokens : List τ) :
    (orElse first second).reads tokens = (first.reads tokens).or (second.reads tokens) := by
  cases found : first tokens with
  | mk result ahead => cases result <;> simp [reads, orElse, found]

@[simp]
theorem reads_choice_nil (tokens : List τ) :
    (choice ([] : List (Reader τ α))).reads tokens = none := rfl

@[simp]
theorem reads_choice_cons (reader : Reader τ α) (others : List (Reader τ α)) (tokens : List τ) :
    (choice (reader :: others)).reads tokens =
      (reader.reads tokens).or ((choice others).reads tokens) :=
  reads_orElse reader (choice others) tokens

@[simp]
theorem reads_optional (reader : Reader τ α) (tokens : List τ) :
    (optional reader).reads tokens =
      some (match reader.reads tokens with
        | some (value, rest) => (some value, rest)
        | none => (none, tokens)) := by
  rw [optional, reads_orElse, reads_map, reads_pure]
  cases reader.reads tokens <;> rfl

@[simp]
theorem reads_select_nil (value? : τ → Option α) : (select value?).reads [] = none := rfl

@[simp]
theorem reads_select_cons (value? : τ → Option α) (token : τ) (rest : List τ) :
    (select value?).reads (token :: rest) = (value? token).map fun value => (value, rest) := by
  cases found : value? token <;> simp [reads, select, found]

@[simp]
theorem reads_just_cons [DecidableEq τ] (token found : τ) (rest : List τ) :
    (just token).reads (found :: rest) = if found = token then some ((), rest) else none := by
  by_cases same : found = token <;> simp [just, same]

@[simp]
theorem reads_just_nil [DecidableEq τ] (token : τ) : (just token).reads [] = none := rfl

theorem reads_just_eq_some [DecidableEq τ] {token : τ} {tokens rest : List τ} {value : Unit} :
    (just token).reads tokens = some (value, rest) ↔ tokens = token :: rest := by
  cases tokens with
  | nil => simp
  | cons found others =>
    by_cases same : found = token <;> simp [same]

theorem reads_select_eq_some {value? : τ → Option α} {tokens rest : List τ} {value : α} :
    (select value?).reads tokens = some (value, rest) ↔
      ∃ token, tokens = token :: rest ∧ value? token = some value := by
  cases tokens with
  | nil => simp
  | cons found others =>
    simp only [reads_select_cons, Option.map_eq_some_iff, Prod.mk.injEq, List.cons.injEq]
    constructor
    · rintro ⟨_, named, rfl, rfl⟩
      exact ⟨found, ⟨rfl, rfl⟩, named⟩
    · rintro ⟨token, ⟨rfl, rfl⟩, named⟩
      exact ⟨value, named, rfl, rfl⟩

theorem reads_bind_eq_some {first : Reader τ α} {next : α → Reader τ β} {tokens rest : List τ}
    {value : β} :
    (first >>= next).reads tokens = some (value, rest) ↔
      ∃ found middle, first.reads tokens = some (found, middle) ∧
        (next found).reads middle = some (value, rest) := by
  simp [Option.bind_eq_some_iff]

theorem reads_optional_eq_some {reader : Reader τ α} {tokens rest : List τ} {found : Option α} :
    (optional reader).reads tokens = some (found, rest) ↔
      (∃ value, found = some value ∧ reader.reads tokens = some (value, rest)) ∨
        (found = none ∧ tokens = rest ∧ reader.reads tokens = none) := by
  rw [reads_optional]
  cases reader.reads tokens with
  | none => simp [eq_comm]
  | some read =>
    obtain ⟨value, behind⟩ := read
    simp only [Option.some.injEq, Prod.mk.injEq, reduceCtorEq, and_false, or_false]
    constructor
    · rintro ⟨rfl, rfl⟩
      exact ⟨value, rfl, rfl, rfl⟩
    · rintro ⟨_, rfl, rfl, rfl⟩
      exact ⟨rfl, rfl⟩

theorem reads_pure_eq_some {value last : α} {tokens rest : List τ} :
    (pure value : Reader τ α).reads tokens = some (last, rest) ↔ value = last ∧ tokens = rest := by
  simp

theorem reads_repeatedly (step : α → Reader τ α) (value : α) (tokens : List τ) :
    (repeatedly step value).reads tokens = (folding step tokens.length value).reads tokens := rfl

theorem reads_foldl (first : Reader τ α) (step : α → Reader τ α) (tokens : List τ) :
    (foldl first step).reads tokens =
      (first.reads tokens).bind fun found => (repeatedly step found.1).reads found.2 :=
  reads_bind first (repeatedly step) tokens

theorem reads_foldr (sign : Reader τ Unit) (operand : Reader τ α) (apply : α → α)
    (tokens : List τ) :
    (foldr sign operand apply).reads tokens =
      (prefixing sign operand apply tokens.length).reads tokens := rfl

/-! ## Soundness -/

/-- Whatever a reader reads is written as it should be. -/
def Sound (reader : Reader τ α) (Written : List τ → α → Prop) : Prop :=
  ∀ tokens value rest, reader.reads tokens = some (value, rest) →
    ∃ taken, tokens = taken ++ rest ∧ Written taken value

variable {Written : List τ → α → Prop}

theorem Sound.imp {reader : Reader τ α} {Other : List τ → α → Prop} (sound : Sound reader Written)
    (imp : ∀ taken value, Written taken value → Other taken value) : Sound reader Other := by
  intro tokens value rest read
  obtain ⟨taken, split, written⟩ := sound tokens value rest read
  exact ⟨taken, split, imp taken value written⟩

theorem sound_pure {value : α} (written : Written [] value) :
    Sound (pure value : Reader τ α) Written := by
  intro tokens last rest read
  obtain ⟨rfl, rfl⟩ := reads_pure_eq_some.mp read
  exact ⟨[], rfl, written⟩

theorem sound_fail : Sound (fail : Reader τ α) Written := by
  intro _ _ _ read
  simp at read

theorem Sound.bind {first : Reader τ α} {next : α → Reader τ β} {After : List τ → β → Prop}
    (head : Sound first Written)
    (tail : ∀ taken value, Written taken value →
      Sound (next value) fun further last => After (taken ++ further) last) :
    Sound (first >>= next) After := by
  intro tokens last rest read
  obtain ⟨value, middle, start, finish⟩ := reads_bind_eq_some.mp read
  obtain ⟨taken, rfl, written⟩ := head tokens value middle start
  obtain ⟨further, rfl, after⟩ := tail taken value written middle last rest finish
  exact ⟨taken ++ further, by simp, after⟩

theorem Sound.orElse {first second : Reader τ α} (left : Sound first Written)
    (right : Sound second Written) : Sound (orElse first second) Written := by
  intro tokens value rest read
  rw [reads_orElse, Option.or_eq_some_iff] at read
  cases read with
  | inl read => exact left tokens value rest read
  | inr read => exact right tokens value rest read.2

theorem Sound.choice {readers : List (Reader τ α)}
    (each : ∀ reader ∈ readers, Sound reader Written) : Sound (choice readers) Written := by
  induction readers with
  | nil => exact sound_fail
  | cons reader others ih =>
    have behind : Sound (Reader.choice others) Written :=
      ih fun other member => each other (by simp [member])
    exact (each reader (by simp)).orElse behind

theorem Sound.map {reader : Reader τ α} (f : α → β) (sound : Sound reader Written) :
    Sound (f <$> reader) fun taken value => ∃ found, Written taken found ∧ f found = value := by
  intro tokens value rest read
  rw [reads_map, Option.map_eq_some_iff] at read
  obtain ⟨⟨found, behind⟩, read, same⟩ := read
  obtain ⟨rfl, rfl⟩ := Prod.mk.inj same
  obtain ⟨taken, split, written⟩ := sound tokens found behind read
  exact ⟨taken, split, found, written, rfl⟩

theorem sound_select {value? : τ → Option α} :
    Sound (select value?) fun taken value =>
      ∃ token, taken = [token] ∧ value? token = some value := by
  intro tokens value rest read
  obtain ⟨token, rfl, found⟩ := reads_select_eq_some.mp read
  exact ⟨[token], rfl, token, rfl, found⟩

theorem sound_just [DecidableEq τ] {token : τ} :
    Sound (just token) fun taken _ => taken = [token] := by
  intro tokens value rest read
  exact ⟨[token], reads_just_eq_some.mp read, rfl⟩

theorem Sound.just_bind [DecidableEq τ] {token : τ} {next : Unit → Reader τ α}
    (tail : Sound (next ()) fun further last => Written (token :: further) last) :
    Sound (just token >>= next) Written := by
  refine sound_just.bind ?_
  rintro _ _ rfl
  exact tail

theorem Sound.optional {reader : Reader τ α} (sound : Sound reader Written) :
    Sound (optional reader) fun taken found => match found with
      | some value => Written taken value
      | none => taken = [] := by
  intro tokens found rest read
  cases reads_optional_eq_some.mp read with
  | inl whole =>
    obtain ⟨value, rfl, within⟩ := whole
    exact sound tokens value rest within
  | inr stopped =>
    obtain ⟨rfl, rfl, -⟩ := stopped
    exact ⟨[], rfl, rfl⟩

theorem Sound.optional_bind {reader : Reader τ α} {next : Option α → Reader τ β}
    {After : List τ → β → Prop} (inner : Sound reader Written)
    (matched : ∀ taken value, Written taken value →
      Sound (next (some value)) fun further last => After (taken ++ further) last)
    (unmatched : Sound (next none) After) : Sound (Reader.optional reader >>= next) After := by
  refine inner.optional.bind fun taken found known => ?_
  cases found with
  | some value => exact matched taken value known
  | none =>
    subst known
    exact unmatched

theorem sound_folding {step : α → Reader τ α}
    (more : ∀ taken value, Written taken value →
      Sound (step value) fun further next => Written (taken ++ further) next)
    (bound : Nat) (taken : List τ) (value : α) (written : Written taken value) :
    Sound (folding step bound value) fun further last => Written (taken ++ further) last := by
  induction bound generalizing taken value with
  | zero => exact sound_pure (by simpa using written)
  | succ bound ih =>
    refine (more taken value written).optional_bind ?_ (sound_pure (by simpa using written))
    intro further next written
    simpa using ih (taken ++ further) next written

theorem Sound.foldl {first : Reader τ α} {step : α → Reader τ α} (base : Sound first Written)
    (more : ∀ taken value, Written taken value →
      Sound (step value) fun further next => Written (taken ++ further) next) :
    Sound (foldl first step) Written := by
  refine base.bind fun taken value written => ?_
  intro tokens last rest read
  exact sound_folding more tokens.length taken value written tokens last rest read

theorem sound_prefixing [DecidableEq τ] {token : τ} {operand : Reader τ α} {apply : α → α}
    (base : Sound operand Written)
    (signed : ∀ taken value, Written taken value → Written (token :: taken) (apply value))
    (bound : Nat) : Sound (prefixing (just token) operand apply bound) Written := by
  induction bound with
  | zero => exact base
  | succ bound ih =>
    refine sound_just.optional_bind ?_ base
    rintro _ _ rfl
    exact ih.bind fun taken value written => sound_pure (by simpa using signed taken value written)

theorem Sound.foldr [DecidableEq τ] {token : τ} {operand : Reader τ α} {apply : α → α}
    (base : Sound operand Written)
    (signed : ∀ taken value, Written taken value → Written (token :: taken) (apply value)) :
    Sound (foldr (just token) operand apply) Written :=
  fun tokens => sound_prefixing base signed tokens.length tokens

theorem Sound.delimited [DecidableEq τ] {opening closing : τ} {reader : Reader τ α}
    {Within : List τ → α → Prop} (inner : Sound reader Within)
    (written : ∀ within value, Within within value →
      Written (opening :: within ++ [closing]) value) :
    Sound (delimited (just opening) reader (just closing)) Written := by
  refine Sound.just_bind (inner.bind fun within value inside => ?_)
  exact Sound.just_bind (sound_pure (by simpa using written within value inside))

/-! ## Lists -/

/-- The tokens of several parts with a token between them. -/
def listed (separator : τ) (parts : List (List τ × α)) : List τ :=
  [separator].intercalate (parts.map (·.1))

def continued (separator : τ) (parts : List (List τ × α)) : List τ :=
  parts.flatMap fun part => separator :: part.1

@[simp]
theorem continued_nil (separator : τ) :
    continued separator ([] : List (List τ × α)) = [] := rfl

@[simp]
theorem continued_cons (separator : τ) (part : List τ × α) (others : List (List τ × α)) :
    continued separator (part :: others) = separator :: (part.1 ++ continued separator others) :=
  List.flatMap_cons

theorem listed_cons (separator : τ) (part : List τ × α) (others : List (List τ × α)) :
    listed separator (part :: others) = part.1 ++ continued separator others := by
  induction others generalizing part with
  | nil => simp [listed]
  | cons other others ih =>
    have tail := ih other
    simp only [listed, List.map_cons] at tail ⊢
    rw [List.intercalate_cons_cons, tail]
    simp

theorem listed_concat (separator : τ) {parts : List (List τ × α)} (nonempty : parts ≠ [])
    (part : List τ × α) :
    listed separator (parts ++ [part]) = listed separator parts ++ separator :: part.1 := by
  cases parts with
  | nil => exact absurd rfl nonempty
  | cons first others => simp [listed_cons, continued]

theorem length_le_listed (separator : τ) {parts : List (List τ × α)} {part : List τ × α}
    (member : part ∈ parts) : part.1.length ≤ (listed separator parts).length := by
  induction parts with
  | nil => cases member
  | cons first others ih =>
    rw [listed_cons, List.length_append]
    cases List.mem_cons.mp member with
    | inl same => simp [same]
    | inr member =>
      have inner := ih member
      cases others with
      | nil => cases member
      | cons second others =>
        rw [listed_cons] at inner
        simp only [continued_cons, List.length_cons]
        omega

/-- A list is written as its items with a token between them. -/
def IsList (separator : τ) (Written : List τ → α → Prop) (taken : List τ) (items : List α) : Prop :=
  ∃ parts : List (List τ × α), parts ≠ [] ∧ (∀ part ∈ parts, Written part.1 part.2) ∧
    taken = listed separator parts ∧ items = parts.map (·.2)

section Separated

variable {separator : τ} {item : Reader τ α} (each : Sound item Written)
include each

theorem sound_singleton : Sound (List.singleton <$> item) (IsList separator Written) := by
  refine each.bind fun taken value written => sound_pure ?_
  exact ⟨[(taken, value)], by simp, by simpa using written, by simp [listed], rfl⟩

theorem sound_another [DecidableEq τ] {taken : List τ} {items : List α}
    (written : IsList separator Written taken items) :
    Sound (another item (just separator) items) fun further more =>
      IsList separator Written (taken ++ further) more := by
  obtain ⟨parts, nonempty, all, rfl, rfl⟩ := written
  refine Sound.just_bind (each.bind fun taken value written => sound_pure ?_)
  refine ⟨parts ++ [(taken, value)], by simp, ?_, ?_, by simp⟩
  · intro part member
    cases List.mem_append.mp member with
    | inl earlier => exact all part earlier
    | inr last => simpa [List.mem_singleton.mp last] using written
  · simp [listed_concat separator nonempty]

theorem Sound.separated [DecidableEq τ] :
    Sound (separated item (just separator)) (IsList separator Written) :=
  (sound_singleton each).foldl fun _ _ => sound_another each

end Separated

/-! ## Completeness -/

/-- Reading from these tokens, a fold has come to a value, with the rest still ahead. -/
def Folds (first : Reader τ α) (step : α → Reader τ α) (tokens : List τ) (value : α)
    (rest : List τ) : Prop :=
  ∃ bound, rest.length ≤ bound ∧
    (foldl first step).reads tokens = (folding step bound value).reads rest

namespace Folds

variable {first : Reader τ α} {step : α → Reader τ α} {tokens middle rest : List τ}
  {value next : α}

theorem start (started : first.reads tokens = some (value, rest)) :
    Folds first step tokens value rest :=
  ⟨rest.length, Nat.le_refl _, by simp [reads_foldl, started, reads_repeatedly]⟩

theorem more (folds : Folds first step tokens value middle)
    (stepped : (step value).reads middle = some (next, rest))
    (shorter : rest.length < middle.length) : Folds first step tokens next rest := by
  obtain ⟨bound, enough, same⟩ := folds
  cases bound with
  | zero => omega
  | succ bound => exact ⟨bound, by omega, by simp [same, folding, stepped]⟩

theorem stop (folds : Folds first step tokens value rest)
    (stopped : (step value).reads rest = none) :
    (foldl first step).reads tokens = some (value, rest) := by
  obtain ⟨bound, -, same⟩ := folds
  cases bound with
  | zero => exact same
  | succ bound => simp [same, folding, stopped]

end Folds

theorem reads_foldl_of_none {first : Reader τ α} {step : α → Reader τ α} {tokens : List τ}
    (stopped : first.reads tokens = none) : (foldl first step).reads tokens = none := by
  simp [reads_foldl, stopped]

section Prefixes

variable [DecidableEq τ] {token : τ} {operand : Reader τ α} {apply : α → α} {tokens : List τ}

theorem reads_foldr_of_unsigned (unsigned : (just token).reads tokens = none) :
    (foldr (just token) operand apply).reads tokens = operand.reads tokens := by
  rw [reads_foldr]
  cases tokens.length with
  | zero => rfl
  | succ bound => simp [prefixing, unsigned]

theorem reads_foldr_cons :
    (foldr (just token) operand apply).reads (token :: tokens) =
      ((foldr (just token) operand apply).reads tokens).map fun found =>
        (apply found.1, found.2) := by
  have signed : (foldr (just token) operand apply).reads (token :: tokens) =
      ((foldr (just token) operand apply).reads tokens).bind fun found =>
        some (apply found.1, found.2) := by
    simp [reads_foldr, prefixing]
  exact signed.trans Option.map_eq_bind.symm

end Prefixes

theorem reads_delimited [DecidableEq τ] {opening closing : τ} {reader : Reader τ α}
    {within rest : List τ} {value : α}
    (inner : reader.reads (within ++ closing :: rest) = some (value, closing :: rest)) :
    (delimited (just opening) reader (just closing)).reads
      (opening :: within ++ [closing] ++ rest) = some (value, rest) := by
  simp [delimited, inner]

section Items

variable [DecidableEq τ] {separator : τ} {item : Reader τ α}

theorem Folds.append {tokens behind : List τ} {done : List α} {part : List τ × α}
    (folds : Folds (List.singleton <$> item) (another item (just separator)) tokens done
      (separator :: part.1 ++ behind))
    (read : item.reads (part.1 ++ behind) = some (part.2, behind)) :
    Folds (List.singleton <$> item) (another item (just separator)) tokens (done ++ [part.2])
      behind := by
  apply folds.more
  · simp [another, read]
  · simp only [List.cons_append, List.length_cons, List.length_append]
    omega

/-- Items are read one after the other if each of them is read whatever stops it, be it the token
between the items or what is behind the last one. -/
theorem reads_separated (Stops : List τ → Prop) {parts : List (List τ × α)} {rest : List τ}
    (nonempty : parts ≠ [])
    (each : ∀ part ∈ parts, ∀ behind, Stops behind →
      item.reads (part.1 ++ behind) = some (part.2, behind))
    (between : ∀ behind, Stops (separator :: behind)) (stops : Stops rest)
    (last : (just separator).reads rest = none) :
    (separated item (just separator)).reads (listed separator parts ++ rest) =
      some (parts.map (·.2), rest) := by
  have stops_behind (others : List (List τ × α)) :
      Stops (continued separator others ++ rest) := by
    cases others with
    | nil => exact stops
    | cons other others => exact between _
  have forward (tokens : List τ) (done : List α) (others : List (List τ × α))
      (each : ∀ part ∈ others, ∀ behind, Stops behind →
        item.reads (part.1 ++ behind) = some (part.2, behind))
      (folds : Folds (List.singleton <$> item) (another item (just separator)) tokens done
        (continued separator others ++ rest)) :
      (separated item (just separator)).reads tokens =
        some (done ++ others.map (·.2), rest) := by
    induction others generalizing done with
    | nil => simpa [separated] using folds.stop (by simp [another, last])
    | cons other others ih =>
      have read := each other (by simp) _ (stops_behind others)
      have next : Folds (List.singleton <$> item) (another item (just separator)) tokens
          (done ++ [other.2]) (continued separator others ++ rest) :=
        Folds.append (by simpa using folds) read
      simpa using ih (done ++ [other.2]) (fun part member => each part (by simp [member])) next
  cases parts with
  | nil => exact absurd rfl nonempty
  | cons part others =>
    rw [listed_cons, List.append_assoc]
    refine forward _ [part.2] others (fun later member => each later (by simp [member])) ?_
    apply Folds.start
    simp [each part (by simp) _ (stops_behind others), List.singleton]

end Items

end Rollup.Reader
