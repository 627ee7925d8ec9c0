import Rollup.Proofs.Expr.Parser
import Rollup.Proofs.Farthest

/-! What can follow the tokens that a reader of expressions came past.

However far a reader came, be it on a way that it went back on, the tokens up to there can be filled
up to an expression. A few tokens are enough for that: a null value stands for every operand that is
missing, and what is open is closed behind it.
-/

set_option autoImplicit false

namespace Rollup.Expr

open Reader (Sound Viable Listing IsList)

/-- The tokens that beginnings are filled up with. -/
def fillers : List Token :=
  [.literal .null, .like, .member, .symbol .leftParen, .symbol .rightParen]

/-- Some tokens can be filled up to what a category derives. -/
def Begins (category : Category) (taken : List Token) : Prop :=
  ∃ more e, more ⊆ fillers ∧ Derives category (taken ++ more) e

def BeginsList (taken : List Token) : Prop :=
  ∃ (more : List Token) (parts : List (List Token × Expr)), more ⊆ fillers ∧ parts ≠ [] ∧
    (∀ part ∈ parts, Derives (.chain .or) part.1 part.2) ∧ taken ++ more = enclosed (commas parts)

variable {category other : Category} {taken back : List Token} {e left : Expr}

theorem Derives.begins (derives : Derives category taken e) : Begins category taken :=
  ⟨[], e, List.nil_subset _, by simpa using derives⟩

theorem Begins.inside (begins : Begins category taken) (front : List Token)
    (filled : back ⊆ fillers) (into : ∀ tokens e, Derives category tokens e →
      ∃ x, Derives other (front ++ (tokens ++ back)) x) : Begins other (front ++ taken) := by
  obtain ⟨more, e, filler, derives⟩ := begins
  obtain ⟨x, derives⟩ := into _ e derives
  refine ⟨more ++ back, x, List.append_subset.mpr ⟨filler, filled⟩, ?_⟩
  simpa using derives

theorem Begins.last (begins : Begins category taken) (front : List Token)
    (into : ∀ tokens e, Derives category tokens e → ∃ x, Derives other (front ++ tokens) x) :
    Begins other (front ++ taken) :=
  begins.inside front (List.nil_subset _) (by simpa using into)

theorem derives_null (category : Category) : ∃ e, Derives category [.literal .null] e := by
  have signed : Derives .signed [.literal .null] (.literal .null) := .unsigned (.literal .null)
  have sum : Derives (.chain .sum) [.literal .null] (.literal .null) :=
    .operand (.operand signed : Derives (.chain .product) _ _)
  have not : Derives .not [.literal .null] (.literal .null) := .positive (.sum sum)
  cases category with
  | atom => exact ⟨_, .literal .null⟩
  | signed => exact ⟨_, signed⟩
  | compare => exact ⟨_, .sum sum⟩
  | not => exact ⟨_, not⟩
  | chain level =>
    cases level with
    | product => exact ⟨_, .operand signed⟩
    | sum => exact ⟨_, sum⟩
    | and => exact ⟨_, .operand not⟩
    | or => exact ⟨_, .operand (.operand not : Derives (.chain .and) _ _)⟩

theorem begins_nil (category : Category) : Begins category [] := by
  obtain ⟨e, derives⟩ := derives_null category
  exact ⟨[.literal .null], e, by decide, derives⟩

section Levels

variable {expr : Reader Token Expr} (inner : Viable expr (Begins (.chain .or)))
  (sound : Sound expr (Derives (.chain .or)))

/-! ## Lists -/

theorem beginsList_of_listing
    (listing : Listing (.symbol .comma) (Derives (.chain .or)) (Begins (.chain .or)) taken) :
    BeginsList (.symbol .leftParen :: taken) := by
  obtain ⟨parts, last, each, ⟨more, e, filled, derives⟩, rfl⟩ := listing
  have closing : [Token.symbol .rightParen] ⊆ fillers := by decide
  refine ⟨more ++ [.symbol .rightParen], parts ++ [(last ++ more, e)],
    List.append_subset.mpr ⟨filled, closing⟩, by simp, ?_, ?_⟩
  · exact List.forall_mem_append.mpr ⟨each, List.forall_mem_singleton.mpr derives⟩
  · rw [commas, Reader.listed_snoc, enclosed]
    simp

theorem beginsList_nil : BeginsList [] := by
  obtain ⟨e, derives⟩ := derives_null (.chain .or)
  exact ⟨enclosed [.literal .null], [([.literal .null], e)], by decide, by simp,
    List.forall_mem_singleton.mpr derives, rfl⟩

include inner sound

theorem viable_list : Viable (readList expr) BeginsList := by
  have whole : ∀ tokens e, Derives (.chain .or) tokens e → Begins (.chain .or) tokens :=
    fun _ _ => Derives.begins
  refine Viable.delimited beginsList_nil ⟨[], [], nofun, begins_nil _, rfl⟩
    (inner.separated (begins_nil _) sound whole) sound.separated
    (fun _ => beginsList_of_listing) (fun _ _ => Reader.listing_of_isList whole) ?_
  rintro _ _ ⟨parts, nonempty, each, rfl, -⟩
  exact ⟨[], parts, List.nil_subset _, nonempty, each, List.append_nil _⟩

theorem viable_arguments (name : String) :
    Viable (readArguments expr) fun taken => Begins .atom (.name name :: taken) := by
  refine ((viable_list inner sound).imp ?_).orElse ?_
  · rintro taken ⟨more, parts, filled, nonempty, each, split⟩
    have derives := Derives.call name nonempty each
    rw [← split] at derives
    exact ⟨more, _, filled, derives⟩
  · have inside : Viable (Reader.optional (Reader.just (.symbol .star))) fun taken =>
        taken = [] ∨ taken = [Token.symbol .star] :=
      (Reader.viable_just (.inl rfl) (.inr rfl)).optional (.inl rfl)
    have written : Sound (Reader.optional (Reader.just (.symbol .star))) fun taken _ =>
        taken = [] ∨ taken = [Token.symbol .star] := by
      refine Reader.sound_just.optional.imp fun taken found known => ?_
      cases found with
      | none => exact .inl known
      | some => exact .inr known
    refine Viable.delimited (Derives.column name).begins (.inl rfl) (inside.map _)
      ((written.map _).imp fun _ _ ⟨_, known, _⟩ => known) ?_ (fun _ _ => id) ?_
    · rintro _ (rfl | rfl)
      · exact ⟨[.symbol .rightParen], _, by decide, .callNothing name⟩
      · exact ⟨[.symbol .rightParen], _, by decide, .callStar name⟩
    · rintro _ _ (rfl | rfl)
      · exact (Derives.callNothing name).begins
      · exact (Derives.callStar name).begins

/-! ## Operands -/

theorem viable_reference : Viable (readReference expr) (Begins .atom) := by
  have column : ∀ token name, name? token = some name → Begins .atom [token] := by
    intro token name found
    rw [eq_of_name? found]
    exact (Derives.column name).begins
  refine (Reader.viable_select (begins_nil _) column).bind Reader.sound_select ?_
  rintro _ name ⟨token, rfl, found⟩
  obtain rfl := eq_of_name? found
  have named := (Derives.column name).begins
  refine Viable.optional_bind named (viable_arguments inner sound name)
    (sound_arguments sound name) ?_ (Reader.viable_pure named)
  intro taken args derives
  exact Reader.viable_pure (by simpa using derives.begins)

theorem viable_parenthesized : Viable (readParenthesized expr) (Begins .atom) := by
  refine Viable.delimited (begins_nil _) (begins_nil _) inner sound ?_
    (fun _ _ => Derives.begins) fun _ _ derives => (Derives.parentheses derives).begins
  intro taken begins
  have closing : [Token.symbol .rightParen] ⊆ fillers := by decide
  exact begins.inside [.symbol .leftParen] closing fun _ e derives => ⟨e, .parentheses derives⟩

theorem viable_atom : Viable (readAtom expr) (Begins .atom) := by
  apply Viable.choice (begins_nil _)
  intro reader member
  simp only [List.mem_cons, List.not_mem_nil, or_false] at member
  obtain rfl | rfl | rfl | rfl := member
  · exact Reader.viable_select (begins_nil _) fun _ _ found => (derives_of_literal? found).begins
  · exact Reader.viable_select (begins_nil _) fun _ _ found =>
      (derives_of_placeholder? found).begins
  · exact viable_reference inner sound
  · exact viable_parenthesized inner sound

theorem viable_signed : Viable (readSigned expr) (Begins .signed) := by
  refine Viable.foldr (begins_nil _) ((viable_atom inner sound).imp fun taken begins => ?_)
    fun taken begins => ?_
  · exact begins.last [] fun _ e derives => ⟨e, .unsigned derives⟩
  · exact begins.last [.symbol .minus] fun _ e derives => ⟨_, .negative derives⟩

omit inner sound in
theorem viable_chain {level : Chain} {operand : Reader Token Expr}
    (viable : Viable operand (Begins level.operand))
    (each : Sound operand (Derives level.operand)) :
    Viable (readChain level operand) (Begins (.chain level)) := by
  have first : ∀ taken, Begins level.operand taken → Begins (.chain level) taken :=
    fun taken begins => begins.last [] fun _ e derives => ⟨e, .operand derives⟩
  refine Viable.foldl (viable.imp first) (each.imp fun _ _ => .operand)
    (fun _ _ => Derives.begins) (fun _ _ => sound_right each) fun before left derives => ?_
  -- Behind an operator another operand can begin.
  have behind : ∀ token op, level.operator? token = some op → ∀ taken,
      Begins level.operand taken → Begins (.chain level) (before ++ ([token] ++ taken)) := by
    intro token op found taken begins
    obtain ⟨allowed, spelled⟩ := mem_operators_of_operator? found
    rw [← List.append_assoc]
    refine begins.last (before ++ [token]) fun tokens e second => ⟨.binary op left e, ?_⟩
    exact spelled ▸ Derives.binary allowed derives second
  refine (Reader.viable_select (by simpa using derives.begins) fun token op found => ?_).bind
    Reader.sound_select ?_
  · simpa using behind token op found [] (begins_nil _)
  · rintro _ op ⟨token, rfl, found⟩
    exact (viable.imp (behind token op found)).map _

theorem viable_product : Viable (readProduct expr) (Begins (.chain .product)) :=
  viable_chain (viable_signed inner sound) (sound_signed sound)

theorem viable_sum : Viable (readSum expr) (Begins (.chain .sum)) :=
  viable_chain (viable_product inner sound) (sound_product sound)

/-! ## Comparisons -/

section Suffixes

variable {before : List Token} (first : Derives (.chain .sum) before left)
include first

omit inner sound in
theorem begins_compared {op : BinaryOp} (allowed : op ∈ comparisons)
    (begins : Begins (.chain .sum) taken) : Begins .compare (before ++ (op.spelling ++ taken)) := by
  rw [← List.append_assoc]
  exact begins.last (before ++ op.spelling) fun _ _ second => ⟨_, .compare allowed first second⟩

omit inner sound in
theorem begins_member (negated : Bool) (begins : BeginsList taken) :
    Begins .compare (before ++ (negation negated ++ .member :: taken)) := by
  obtain ⟨more, parts, filled, nonempty, each, split⟩ := begins
  have derives := Derives.member negated first nonempty each
  rw [← split] at derives
  exact ⟨more, _, filled, by simpa using derives⟩

omit inner sound in
theorem begins_is : Begins .compare (before ++ [.is]) :=
  ⟨[.literal .null], _, by decide, by simpa [negation] using Derives.null false first⟩

omit inner sound in
theorem begins_isNot (negated : Bool) : Begins .compare (before ++ .is :: negation negated) :=
  ⟨[.literal .null], _, by decide, Derives.null negated first⟩

omit inner sound in
theorem begins_not : Begins .compare (before ++ [.not]) := by
  obtain ⟨e, null⟩ := derives_null (.chain .sum)
  have derives : Derives .compare (before ++ BinaryOp.notLike.spelling ++ [.literal .null]) _ :=
    .compare (by decide) first null
  exact ⟨[.like, .literal .null], _, by decide, by simpa [BinaryOp.spelling] using derives⟩

theorem viable_compared :
    Viable (readCompared expr) fun further => Begins .compare (before ++ further) := by
  have start : Begins .compare (before ++ []) := by simpa using (Derives.sum first).begins
  have spelled : ∀ op ∈ comparisons, Begins .compare (before ++ op.spelling) :=
    fun op allowed => by simpa using begins_compared first allowed (begins_nil _)
  have comparison : Viable readComparison fun further => Begins .compare (before ++ further) := by
    refine (Reader.viable_select start fun token op found => ?_).orElse ?_
    · obtain ⟨allowed, same⟩ := mem_comparisons_of_comparison? found
      exact same ▸ spelled op allowed
    · refine Viable.just_bind start (begins_not first) ?_
      have whole : Begins .compare (before ++ [.not, .like]) := spelled .notLike (by decide)
      exact Viable.just_bind (begins_not first) whole (Reader.viable_pure whole)
  refine comparison.bind sound_comparison ?_
  rintro _ op ⟨allowed, rfl⟩
  exact ((viable_sum inner sound).imp fun _ => begins_compared first allowed).map _

theorem viable_member :
    Viable (readMember expr) fun further => Begins .compare (before ++ further) := by
  have start : Begins .compare (before ++ []) := by simpa using (Derives.sum first).begins
  have negation_ : Viable (Reader.optional (Reader.just .not)) fun further =>
      Begins .compare (before ++ further) :=
    (Reader.viable_just start (begins_not first)).optional start
  refine negation_.bind sound_negation ?_
  rintro _ negated rfl
  have ready : Begins .compare (before ++ (negation negated.isSome ++ [])) := by
    cases negated with
    | none => simpa [negation] using start
    | some => exact begins_not first
  refine Viable.just_bind ready (begins_member first _ beginsList_nil) ?_
  exact ((viable_list inner sound).imp fun _ => begins_member first _).map _

omit inner sound in
theorem viable_null : Viable readNull fun further => Begins .compare (before ++ further) := by
  have start : Begins .compare (before ++ []) := by simpa using (Derives.sum first).begins
  have is := begins_is first
  have negation_ : Viable (Reader.optional (Reader.just .not)) fun further =>
      Begins .compare (before ++ .is :: further) :=
    (Reader.viable_just is (begins_isNot first true)).optional is
  refine Viable.just_bind start is (negation_.bind sound_negation ?_)
  rintro _ negated rfl
  have whole := (Derives.null negated.isSome first).begins
  rw [List.append_assoc] at whole
  refine Viable.just_bind ?_ whole (Reader.viable_pure whole)
  simpa using begins_isNot first negated.isSome

theorem viable_suffix :
    Viable (readSuffix expr) fun further => Begins .compare (before ++ further) := by
  apply Viable.choice
  · simpa using (Derives.sum first).begins
  · intro reader member
    simp only [List.mem_cons, List.not_mem_nil, or_false] at member
    obtain rfl | rfl | rfl := member
    · exact viable_compared inner sound first
    · exact viable_member inner sound first
    · exact viable_null first

end Suffixes

theorem viable_compare : Viable (readCompare expr) (Begins .compare) := by
  have head : Viable (readSum expr) (Begins .compare) :=
    (viable_sum inner sound).imp fun _ begins =>
      begins.last [] fun _ e derives => ⟨e, .sum derives⟩
  refine head.bind (sound_sum sound) fun taken left first => ?_
  have start : Begins .compare (taken ++ []) := by simpa using (Derives.sum first).begins
  refine Viable.optional_bind start (viable_suffix inner sound first) (sound_suffix sound) ?_
    (Reader.viable_pure start)
  intro further suffix follows
  exact Reader.viable_pure (by simpa using (follows taken left first).begins)

/-! ## Levels -/

theorem viable_not : Viable (readNot expr) (Begins .not) := by
  refine Viable.foldr (begins_nil _) ((viable_compare inner sound).imp fun taken begins => ?_)
    fun taken begins => ?_
  · exact begins.last [] fun _ e derives => ⟨e, .positive derives⟩
  · exact begins.last [.not] fun _ e derives => ⟨_, .not derives⟩

theorem viable_and : Viable (readAnd expr) (Begins (.chain .and)) :=
  viable_chain (viable_not inner sound) (sound_not sound)

theorem viable_or : Viable (readOr expr) (Begins (.chain .or)) :=
  viable_chain (viable_and inner sound) (sound_chain (sound_not sound))

/-- The reader of every category comes as far as an expression can be begun. -/
theorem viable_reader (category : Category) :
    Viable (category.reader expr) (Begins category) := by
  cases category with
  | atom => exact viable_atom inner sound
  | signed => exact viable_signed inner sound
  | compare => exact viable_compare inner sound
  | not => exact viable_not inner sound
  | chain level =>
    cases level with
    | product => exact viable_product inner sound
    | sum => exact viable_sum inner sound
    | and => exact viable_and inner sound
    | or => exact viable_or inner sound

end Levels

theorem viable_readWithin (depth : Nat) : Viable (readWithin depth) (Begins (.chain .or)) := by
  induction depth with
  | zero => exact Reader.viable_fail (begins_nil _)
  | succ depth ih => exact viable_or ih (sound_readWithin depth)

end Rollup.Expr
