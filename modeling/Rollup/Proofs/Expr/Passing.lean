import Rollup.Proofs.Expr.Viable
import Rollup.Proofs.Passing

/-! What the readers of expressions come past.

No beginning of an expression is refused. By induction on the derivation of the whole expression,
its reader comes past the beginning whatever is behind it: the beginning ends in one of the parts,
and the parts in front of that one are read, since what is behind goes on from none of them.
-/

set_option autoImplicit false

namespace Rollup.Expr

open Reader (Passes Reaches Sound Viable initial_append initial_cons initial_singleton)

/-- The reader of a category comes past whatever some tokens begin with. -/
def Passed (category : Category) (tokens : List Token) : Prop :=
  ∀ taken, taken <+: tokens → ∀ depth, taken.length ≤ depth →
    Passes (category.reader (readWithin depth)) taken

variable {category : Category} {level : Chain} {op : BinaryOp} {depth : Nat}
  {tokens taken left right : List Token} {parts : List (List Token × Expr)} {e l : Expr}

theorem passed_of_nonempty
    (each : ∀ taken, taken <+: tokens → taken ≠ [] → ∀ depth, taken.length ≤ depth →
      Passes (category.reader (readWithin depth)) taken) : Passed category tokens := by
  intro taken initial depth enough
  by_cases empty : taken = []
  · subst empty
    exact (viable_reader (viable_readWithin depth) (sound_readWithin depth) category).passes_nil
  · exact each taken initial empty depth enough

theorem passed_nil : Passed category [] :=
  passed_of_nonempty fun _ initial nonempty => absurd (List.prefix_nil.mp initial) nonempty

theorem passed_cons {token : Token} {tail : List Token}
    (each : ∀ front, front <+: tail → ∀ depth, front.length < depth →
      Passes (category.reader (readWithin depth)) (token :: front)) :
    Passed category (token :: tail) := by
  refine passed_of_nonempty fun taken initial nonempty depth enough => ?_
  obtain ⟨front, rfl, inside⟩ := initial_cons initial nonempty
  exact each front inside depth enough

theorem Stops.of_initial (stops : Stops category tokens) (initial : taken <+: tokens)
    (nonempty : taken ≠ []) (behind : List Token) : Stops category (taken ++ behind) := by
  obtain ⟨more, rfl⟩ := initial
  cases taken with
  | nil => exact absurd rfl nonempty
  | cons token front => exact stops_cons.mpr (stops_cons.mp stops)

theorem Derives.just_eq_none_of_initial (derives : Derives category tokens e)
    (initial : taken <+: tokens) (nonempty : taken ≠ []) {token : Token}
    (above : category.opening < opening token) (behind : List Token) :
    (Reader.just token).reads (taken ++ behind) = none := by
  obtain ⟨first, others, rfl, within⟩ := derives.opens
  obtain ⟨front, rfl, -⟩ := initial_cons initial nonempty
  have apart : first ≠ token := by
    rintro rfl
    omega
  simp [apart]

/-! ## Lists -/

section Lists

variable (some_ : parts ≠ []) (each : ∀ part ∈ parts, Derives (.chain .or) part.1 part.2)
  (passed : ∀ part ∈ parts, Passed (.chain .or) part.1)
include some_ each passed

theorem passes_list (initial : taken <+: enclosed (commas parts)) (nonempty : taken ≠ [])
    (enough : taken.length ≤ depth) : Passes (readList (readWithin depth)) taken := by
  obtain ⟨front, rfl, inside⟩ := initial_cons initial nonempty
  cases depth with
  | zero => cases enough
  | succ depth =>
    have fits : front.length ≤ depth := Nat.le_of_succ_le_succ enough
    have read : ∀ part ∈ parts, part.1.length ≤ depth → ∀ behind, Stops (.chain .or) behind →
        (readWithin (depth + 1)).reads (part.1 ++ behind) = some (part.2, behind) :=
      fun part member fits behind stops =>
        ((each part member).comes depth fits behind).reads_within stops
    refine Reader.passes_delimited (parts.map (·.2)) inside (fun within => ?_)
      fun whole behind => ?_
    · refine Reader.passes_separated (Stops (.chain .or)) (fun _ => stops_cons.mpr (by decide))
        read ?_ fits within some_
      exact fun part member front within fits => passed part member front within depth fits
    · refine reads_items some_ fun part member => read part member ?_
      have shorter := Reader.length_le_listed (.symbol .comma) member
      rw [whole, List.length_append] at fits
      exact Nat.le_trans shorter (Nat.le_of_add_right_le fits)

end Lists

section Arguments

variable {expr : Reader Token Expr}

theorem readList_eq_none (sound : Sound expr (Derives (.chain .or))) {token : Token}
    (closed : opening token = 3) (rest : List Token) :
    (readList expr).reads (.symbol .leftParen :: token :: rest) = none := by
  have nothing : expr.reads (token :: rest) = none := reads_eq_none sound closed
  simp [readList, readParenthesized, Reader.delimited, Reader.separated, Reader.reads_foldl,
    nothing]

section Nothing

variable {star : List Token} (nothing : star = [] ∨ star = [.symbol .star])
include nothing

theorem passes_star (initial : taken <+: star) :
    Passes (Reader.optional (Reader.just (.symbol .star))) taken := by
  by_cases empty : taken = []
  · have viable : Viable (Reader.just (Token.symbol .star)) fun _ => True :=
      Reader.viable_just trivial trivial
    exact empty ▸ (viable.optional trivial).passes_nil
  · rcases nothing with rfl | rfl
    · exact absurd (List.prefix_nil.mp initial) empty
    · rw [initial_singleton initial empty]
      exact (Reader.passes_just _).optional

/-- Where the parentheses hold no expression the second choice for arguments is open, unless the
first one can still be meant. -/
theorem passes_noArguments (sound : Sound expr (Derives (.chain .or)))
    (initial : taken <+: enclosed star) (nonempty : taken ≠ []) :
    Passes (readArguments expr) taken := by
  obtain ⟨front, rfl, inside⟩ := initial_cons initial nonempty
  by_cases only : front = []
  · subst only
    exact (Reader.passes_just _).bind.orElse
  · refine Reader.passes_orElse (fun behind => ?_) ?_
    · rcases nothing with rfl | rfl
      all_goals
        obtain ⟨more, rfl, -⟩ := initial_cons inside only
        exact readList_eq_none sound rfl _
    · refine Reader.passes_delimited [] inside (fun within => (passes_star nothing within).map _)
        fun _ behind => ?_
      rcases nothing with rfl | rfl <;> simp

end Nothing

theorem passes_reference {name : String} {front : List Token}
    (arguments : front ≠ [] → Passes (readArguments expr) front) :
    Passes (readAtom expr) (.name name :: front) := by
  refine Reader.passes_choice [Reader.select literal?, Reader.select placeholder?] ?_ ?_
  · simp [literal?, placeholder?]
  · have named : name? (.name name) = some name := rfl
    exact Reader.passes_select_bind named fun some_ => (arguments some_).optional.bind

end Arguments

theorem passed_enclosed (derives : Derives (.chain .or) tokens e)
    (passed : Passed (.chain .or) tokens) : Passed .atom (enclosed tokens) := by
  refine passed_cons fun front initial depth enough => ?_
  cases depth with
  | zero => cases enough
  | succ depth =>
    have fits : front.length ≤ depth := Nat.le_of_lt_succ enough
    refine Reader.passes_choice
      [Reader.select literal?, Reader.select placeholder?, readReference _] ?_ ?_
    · simp [literal?, placeholder?, readReference, name?]
    · refine Reader.passes_delimited e initial (fun within => passed front within depth fits)
        fun whole behind => ?_
      rw [whole, List.length_append] at fits
      exact (derives.comes depth (Nat.le_of_add_right_le fits) _).reads_within
        (stops_cons.mpr (by decide))

/-! ## Chains -/

theorem Derives.reaches (derives : Derives (.chain level) tokens e) (enough : tokens.length ≤ depth)
    {rest : List Token} (stops : Stops level.operand rest) :
    Reaches (level.operand.reader (readWithin depth))
      (readRight level (level.operand.reader (readWithin depth))) (tokens ++ rest) e rest := by
  generalize is : Category.chain level = category at derives
  induction derives generalizing rest with
  | operand inner =>
    obtain rfl := Category.chain.inj is
    exact .start ((inner.comes depth enough rest).reads stops)
  | @binary _ op _ _ _ _ allowed first second ih =>
    obtain rfl := Category.chain.inj is
    simp only [List.length_append, List.append_assoc] at enough ⊢
    have right := (second.comes depth (by omega) rest).reads stops
    refine (ih (by omega) (stops_operator allowed) rfl).more (readRight_of_mem allowed right) ?_
    have written := length_spelling op
    simp only [List.length_append]
    omega
  | _ => cases is

theorem passed_binary (allowed : op ∈ level.operators) (first : Derives (.chain level) left l)
    (head : Passed (.chain level) left) (second : Passed level.operand right) :
    Passed (.chain level) (left ++ op.spelling ++ right) := by
  intro taken initial depth enough
  obtain ⟨token, spelled, found, joins⟩ := operator?_of_mem allowed
  rw [spelled, List.append_assoc] at initial
  rcases initial_append initial with within | ⟨more, some_, rfl, beyond⟩
  · exact head taken within depth enough
  obtain ⟨front, rfl, inside⟩ := initial_cons beyond some_
  simp only [List.length_append, List.length_cons] at enough
  intro behind
  have stops : Stops level.operand (token :: front ++ behind) :=
    stops_cons.mpr (joins ▸ joining_operand level)
  have passes : Passes (readRight level (level.operand.reader (readWithin depth)) l)
      (token :: front) :=
    Reader.passes_select_bind found fun _ => (second front inside depth (by omega)).map _
  rw [reader_chain, List.append_assoc]
  exact Nat.le_trans ((first.reaches (by omega) stops).leaves_le nofun) (passes behind)

/-! ## Comparisons -/

theorem passes_comparison (allowed : op ∈ comparisons) (initial : taken <+: op.spelling)
    (nonempty : taken ≠ []) : Passes readComparison taken := by
  by_cases two : op = .notLike
  · subst two
    obtain ⟨front, rfl, last⟩ := initial_cons initial nonempty
    refine Reader.passes_orElse (fun behind => by simp [comparison?]) ?_
    refine Reader.passes_just_bind fun some_ => ?_
    rw [initial_singleton last some_]
    exact (Reader.passes_just _).bind
  · obtain ⟨token, spelled, found⟩ : ∃ token, op.spelling = [token] ∧
        comparison? token = some op := by
      cases op <;> simp [comparisons] at allowed two <;> exact ⟨_, rfl, rfl⟩
    rw [spelled] at initial
    rw [initial_singleton initial nonempty]
    exact (Reader.passes_select found).orElse

theorem passes_compared (allowed : op ∈ comparisons) (second : Passed (.chain .sum) right)
    (initial : taken <+: op.spelling ++ right) (nonempty : taken ≠ [])
    (enough : taken.length ≤ depth) : Passes (readSuffix (readWithin depth)) taken := by
  have compared : Passes (readCompared (readWithin depth)) taken := by
    refine Reader.passes_bind op initial (fun within => passes_comparison allowed within nonempty)
      fun more _ inside split => ⟨fun behind => readComparison_spelling allowed _, ?_⟩
    rw [split, List.length_append] at enough
    exact (second more inside depth (by omega)).map _
  exact compared.orElse

theorem passes_negation {α : Type} {next : Option Unit → Reader Token α} {token : Token}
    {tail : List Token} (negated : Bool) (apart : token ≠ .not)
    (initial : taken <+: negation negated ++ token :: tail) (nonempty : taken ≠ [])
    (later : ∀ more, more ≠ [] → more <+: token :: tail → taken = negation negated ++ more →
      ∀ found, Passes (next found) more) :
    Passes (Reader.optional (Reader.just .not) >>= next) taken := by
  refine Reader.passes_bind (if negated then some () else none) initial (fun within => ?_) ?_
  · cases negated with
    | false => exact absurd (List.prefix_nil.mp within) nonempty
    | true =>
      rw [initial_singleton within nonempty]
      exact (Reader.passes_just _).optional
  · intro more some_ beyond split
    refine ⟨fun behind => ?_, later more some_ beyond split _⟩
    obtain ⟨front, rfl, -⟩ := initial_cons beyond some_
    cases negated <;> simp [negation, apart]

theorem passes_member (negated : Bool) (some_ : parts ≠ [])
    (each : ∀ part ∈ parts, Derives (.chain .or) part.1 part.2)
    (passed : ∀ part ∈ parts, Passed (.chain .or) part.1)
    (initial : taken <+: negation negated ++ .member :: enclosed (commas parts))
    (nonempty : taken ≠ []) (enough : taken.length ≤ depth) :
    Passes (readSuffix (readWithin depth)) taken := by
  -- A `not` alone can still be the one of `not like`.
  by_cases only : taken = [.not]
  · subst only
    have begins : [.not] <+: BinaryOp.notLike.spelling ++ [] := ⟨[.like], rfl⟩
    exact passes_compared (by decide) passed_nil begins nonempty enough
  · refine Reader.passes_choice [readCompared (readWithin depth)] ?_ ?_
    · intro other compared behind
      obtain rfl := List.mem_singleton.mp compared
      cases negated with
      | false =>
        obtain ⟨front, rfl, -⟩ := initial_cons initial nonempty
        simp [readCompared, readComparison, comparison?]
      | true =>
        obtain ⟨front, rfl, inside⟩ := initial_cons initial nonempty
        have longer : front ≠ [] := by
          rintro rfl
          exact only rfl
        obtain ⟨more, rfl, -⟩ := initial_cons inside longer
        simp [readCompared, readComparison, comparison?]
    · refine passes_negation negated (by decide) initial nonempty ?_
      intro more rest_ beyond split found
      obtain ⟨list, rfl, inside⟩ := initial_cons beyond rest_
      rw [split, List.length_append, List.length_cons] at enough
      exact Reader.passes_just_bind fun list_ =>
        (passes_list some_ each passed inside list_ (by omega)).map _

theorem passes_null (negated : Bool)
    (initial : taken <+: .is :: (negation negated ++ [.literal .null])) (nonempty : taken ≠ []) :
    Passes (readSuffix (readWithin depth)) taken := by
  obtain ⟨front, rfl, inside⟩ := initial_cons initial nonempty
  refine Reader.passes_choice [readCompared (readWithin depth), readMember (readWithin depth)]
    ?_ ?_
  · simp [readCompared, readComparison, readMember, comparison?]
  · refine Reader.passes_just_bind fun rest_ => ?_
    refine passes_negation negated (by decide) inside rest_ fun last last_ final _ found => ?_
    rw [initial_singleton final last_]
    exact (Reader.passes_just _).bind

theorem passed_compare {suffix : List Token} (first : Derives (.chain .sum) left l)
    (head : Passed (.chain .sum) left)
    (stops : Stops (.chain .sum) suffix)
    (later : ∀ more, more <+: suffix → more ≠ [] → ∀ depth, more.length ≤ depth →
      Passes (readSuffix (readWithin depth)) more) : Passed .compare (left ++ suffix) := by
  intro taken initial depth enough
  refine Reader.passes_bind l initial (fun within => head taken within depth enough) ?_
  intro more some_ inside split
  rw [split, List.length_append] at enough
  refine ⟨fun behind => ?_, (later more inside some_ depth (by omega)).optional.bind⟩
  exact (first.comes depth (by omega) _).reads (stops.of_initial inside some_ behind)

/-! ## Derivations -/

theorem Derives.passed (derives : Derives category tokens e) : Passed category tokens := by
  induction derives with
  | literal value =>
    refine passed_cons fun front initial depth _ => ?_
    have read : Passes (Reader.select literal?) [.literal value] := Reader.passes_select rfl
    exact List.prefix_nil.mp initial ▸ read.orElse
  | placeholder name =>
    refine passed_cons fun front initial depth _ => ?_
    rw [List.prefix_nil.mp initial]
    refine Reader.passes_choice [Reader.select literal?] ?_ (Reader.passes_select rfl)
    simp [literal?]
  | column name =>
    exact passed_cons fun front initial _ _ =>
      passes_reference fun some_ => absurd (List.prefix_nil.mp initial) some_
  | call name some_ each ih =>
    exact passed_cons fun front initial _ enough => passes_reference fun front_ =>
      (passes_list some_ each ih initial front_ (Nat.le_of_lt enough)).orElse
  | callNothing name =>
    exact passed_cons fun front initial depth _ =>
      passes_reference (passes_noArguments (.inl rfl) (sound_readWithin depth) initial)
  | callStar name =>
    exact passed_cons fun front initial depth _ =>
      passes_reference (passes_noArguments (.inr rfl) (sound_readWithin depth) initial)
  | parentheses inner ih => exact passed_enclosed inner ih
  | unsigned inner ih =>
    refine passed_of_nonempty fun taken initial nonempty depth enough => ?_
    exact (ih taken initial depth enough).unsigned
      (inner.just_eq_none_of_initial initial nonempty (by decide))
  | negative inner ih =>
    exact passed_cons fun front initial depth enough =>
      (ih front initial depth (Nat.le_of_lt enough)).signed
  | operand inner ih =>
    intro taken initial depth enough
    rw [reader_chain]
    exact (ih taken initial depth enough).bind
  | binary allowed first second ihl ihr => exact passed_binary allowed first ihl ihr
  | sum inner ih => exact fun taken initial depth enough => (ih taken initial depth enough).bind
  | compare allowed first second ihl ihr =>
    rw [List.append_assoc]
    exact passed_compare first ihl (stops_comparison allowed) fun more inside some_ _ enough =>
      passes_compared allowed ihr inside some_ enough
  | member negated first some_ each ihl ih =>
    rw [List.append_assoc]
    exact passed_compare first ihl (stops_negation negated) fun more inside more_ _ enough =>
      passes_member negated some_ each ih inside more_ enough
  | null negated first ih =>
    rw [List.append_assoc]
    exact passed_compare first ih (stops_cons.mpr (by decide)) fun more inside some_ _ _ =>
      passes_null negated inside some_
  | positive inner ih =>
    refine passed_of_nonempty fun taken initial nonempty depth enough => ?_
    exact (ih taken initial depth enough).unsigned
      (inner.just_eq_none_of_initial initial nonempty (by decide))
  | not inner ih =>
    exact passed_cons fun front initial depth enough =>
      (ih front initial depth (Nat.le_of_lt enough)).signed

end Rollup.Expr
