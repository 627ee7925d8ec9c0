import Rollup.Proofs.Expr.Grammar

/-! The reader of expressions accepts exactly the grammar.

Each level reads what the grammar derives there if the expressions in parentheses are read so.
Conversely a derivation is read whatever is behind it, as long as that does not go on from the
derived expression; and a level whose left operand grows is followed operator by operator.
-/

set_option autoImplicit false

namespace Rollup.Expr

open Reader (Sound Folds listed)

/-! ## Tokens -/

theorem eq_of_name? {token : Token} {name : String} (found : name? token = some name) :
    token = .name name := by
  cases token <;> simp_all [name?]

theorem derives_of_literal? {token : Token} {e : Expr} (found : literal? token = some e) :
    Derives .atom [token] e := by
  cases token with
  | literal value =>
    obtain rfl := Option.some.inj found
    exact .literal value
  | _ => cases found

theorem derives_of_placeholder? {token : Token} {e : Expr}
    (found : placeholder? token = some e) : Derives .atom [token] e := by
  cases token with
  | placeholder name =>
    obtain rfl := Option.some.inj found
    exact .placeholder name
  | _ => cases found

theorem mem_operators_of_operator? {level : Chain} {token : Token} {op : BinaryOp}
    (found : level.operator? token = some op) :
    op ∈ level.operators ∧ op.spelling = [token] := by
  unfold Chain.operator? at found
  split at found <;> simp_all [Chain.operators, BinaryOp.spelling, eq_comm]

theorem mem_comparisons_of_comparison? {token : Token} {op : BinaryOp}
    (found : comparison? token = some op) : op ∈ comparisons ∧ op.spelling = [token] := by
  unfold comparison? at found
  split at found <;> simp_all [comparisons, BinaryOp.spelling, eq_comm]

/-! ## Soundness -/

section Levels

variable {expr : Reader Token Expr}

theorem sound_parenthesized {α : Type} {reader : Reader Token α}
    {Within Written : List Token → α → Prop} (inner : Sound reader Within)
    (written : ∀ within value, Within within value → Written (enclosed within) value) :
    Sound (readParenthesized reader) Written :=
  inner.delimited written

variable (inner : Sound expr (Derives (.chain .or)))
include inner

theorem sound_list {Written : List Token → List Expr → Prop}
    (written : ∀ parts : List (List Token × Expr), parts ≠ [] →
      (∀ part ∈ parts, Derives (.chain .or) part.1 part.2) →
      Written (enclosed (commas parts)) (parts.map (·.2))) : Sound (readList expr) Written := by
  apply sound_parenthesized inner.separated
  rintro _ _ ⟨parts, nonempty, each, rfl, rfl⟩
  exact written parts nonempty each

theorem sound_arguments (name : String) :
    Sound (readArguments expr) fun taken args =>
      Derives .atom (.name name :: taken) (.call name args) := by
  apply Sound.orElse
  · exact sound_list inner fun parts nonempty each => .call name nonempty each
  · refine sound_parenthesized (Reader.sound_just.optional.map _) ?_
    rintro within _ ⟨star, known, rfl⟩
    cases star with
    | none =>
      subst known
      exact .callNothing name
    | some =>
      subst known
      exact .callStar name

theorem sound_reference : Sound (readReference expr) (Derives .atom) := by
  refine Reader.sound_select.bind ?_
  rintro _ name ⟨token, rfl, found⟩
  obtain rfl := eq_of_name? found
  refine (sound_arguments inner name).optional_bind ?_ (Reader.sound_pure (.column name))
  intro taken args derives
  exact Reader.sound_pure (by simpa using derives)

theorem sound_atom : Sound (readAtom expr) (Derives .atom) := by
  apply Sound.choice
  intro reader member
  simp only [List.mem_cons, List.not_mem_nil, or_false] at member
  obtain rfl | rfl | rfl | rfl := member
  · refine Reader.sound_select.imp ?_
    rintro _ e ⟨token, rfl, found⟩
    exact derives_of_literal? found
  · refine Reader.sound_select.imp ?_
    rintro _ e ⟨token, rfl, found⟩
    exact derives_of_placeholder? found
  · exact sound_reference inner
  · exact sound_parenthesized inner fun within e derives => .parentheses derives

theorem sound_signed : Sound (readSigned expr) (Derives .signed) :=
  ((sound_atom inner).imp fun _ _ => .unsigned).foldr fun _ _ => .negative

omit inner in
theorem sound_right {level : Chain} {operand : Reader Token Expr}
    (each : Sound operand (Derives level.operand)) {taken : List Token} {left : Expr}
    (first : Derives (.chain level) taken left) :
    Sound (readRight level operand left) fun further e =>
      Derives (.chain level) (taken ++ further) e := by
  refine Reader.sound_select.bind ?_
  rintro _ op ⟨token, rfl, found⟩
  obtain ⟨allowed, spelled⟩ := mem_operators_of_operator? found
  refine each.bind fun right e second => Reader.sound_pure ?_
  simpa [spelled] using Derives.binary allowed first second

omit inner in
theorem sound_chain {level : Chain} {operand : Reader Token Expr}
    (each : Sound operand (Derives level.operand)) :
    Sound (readChain level operand) (Derives (.chain level)) :=
  (each.imp fun _ _ => .operand).foldl fun _ _ => sound_right each

theorem sound_product : Sound (readProduct expr) (Derives (.chain .product)) :=
  sound_chain (sound_signed inner)

theorem sound_sum : Sound (readSum expr) (Derives (.chain .sum)) :=
  sound_chain (sound_product inner)

omit inner in
theorem sound_comparison :
    Sound readComparison fun taken op => op ∈ comparisons ∧ op.spelling = taken := by
  apply Sound.orElse
  · refine Reader.sound_select.imp ?_
    rintro _ op ⟨token, rfl, found⟩
    exact mem_comparisons_of_comparison? found
  · exact Sound.just_bind (Sound.just_bind (Reader.sound_pure ⟨by decide, rfl⟩))

omit inner in
theorem sound_negation :
    Sound (Reader.optional (Reader.just .not)) fun taken found =>
      taken = negation found.isSome := by
  refine Reader.sound_just.optional.imp fun taken found known => ?_
  cases found <;> exact known

theorem sound_suffix :
    Sound (readSuffix expr) fun taken suffix =>
      ∀ tokens left, Derives (.chain .sum) tokens left →
        Derives .compare (tokens ++ taken) (suffix.behind left) := by
  apply Sound.choice
  intro reader member
  simp only [List.mem_cons, List.not_mem_nil, or_false] at member
  obtain rfl | rfl | rfl := member
  · refine sound_comparison.bind ?_
    rintro _ op ⟨allowed, rfl⟩
    refine (sound_sum inner).bind fun right e second => Reader.sound_pure ?_
    intro tokens left first
    simpa [Suffix.behind] using Derives.compare allowed first second
  · refine sound_negation.bind ?_
    rintro _ negated rfl
    refine Sound.just_bind ((sound_list inner fun parts nonempty each => ?_).bind fun _ _ written =>
      Reader.sound_pure written)
    intro tokens left first
    simpa [Suffix.behind] using Derives.member negated.isSome first nonempty each
  · refine Sound.just_bind (sound_negation.bind ?_)
    rintro _ negated rfl
    refine Sound.just_bind (Reader.sound_pure ?_)
    intro tokens left first
    simpa [Suffix.behind] using Derives.null negated.isSome first

theorem sound_compare : Sound (readCompare expr) (Derives .compare) := by
  refine (sound_sum inner).bind fun taken left first => ?_
  refine (sound_suffix inner).optional_bind ?_ (Reader.sound_pure ?_)
  · exact fun further suffix follows => Reader.sound_pure (by simpa using follows taken left first)
  · simpa using first.sum

theorem sound_not : Sound (readNot expr) (Derives .not) :=
  ((sound_compare inner).imp fun _ _ => .positive).foldr fun _ _ => .not

theorem sound_or : Sound (readOr expr) (Derives (.chain .or)) :=
  sound_chain (sound_chain (sound_not inner))

end Levels

theorem sound_readWithin (depth : Nat) : Sound (readWithin depth) (Derives (.chain .or)) := by
  induction depth with
  | zero => exact Reader.sound_fail
  | succ depth ih => exact sound_or ih

/-! ## Completeness -/

/-- From which level on a token goes on behind an expression. -/
def joining : Token → Nat
  | .symbol .leftParen => 0
  | .symbol .star | .symbol .slash | .symbol .percent => 1
  | .symbol .plus | .symbol .minus => 2
  | .symbol .eq | .symbol .ne | .symbol .lt | .symbol .lte | .symbol .gt | .symbol .gte => 3
  | .like | .not | .member | .is => 3
  | .and => 4
  | .or => 5
  | _ => 6

def Category.joining : Category → Nat
  | .atom | .signed => 0
  | .chain .product => 1
  | .chain .sum => 2
  | .compare | .not => 3
  | .chain .and => 4
  | .chain .or => 5

/-- What is ahead does not go on from an expression of a category. -/
def Stops (category : Category) (rest : List Token) : Prop :=
  ∀ token ∈ rest.head?, category.joining < joining token

theorem Stops.mono {category other : Category} {rest : List Token} (stops : Stops category rest)
    (tighter : other.joining ≤ category.joining) : Stops other rest :=
  fun token head => Nat.lt_of_le_of_lt tighter (stops token head)

theorem stops_cons {category : Category} {token : Token} {rest : List Token} :
    Stops category (token :: rest) ↔ category.joining < joining token := by
  simp [Stops]

def Category.reader (expr : Reader Token Expr) : Category → Reader Token Expr
  | .atom => readAtom expr
  | .signed => readSigned expr
  | .chain .product => readProduct expr
  | .chain .sum => readSum expr
  | .compare => readCompare expr
  | .not => readNot expr
  | .chain .and => readAnd expr
  | .chain .or => readOr expr

theorem reader_chain (expr : Reader Token Expr) (level : Chain) :
    (Category.chain level).reader expr =
      Reader.foldl (level.operand.reader expr) (readRight level (level.operand.reader expr)) := by
  cases level <;> rfl

theorem operator?_of_mem {level : Chain} {op : BinaryOp} (allowed : op ∈ level.operators) :
    ∃ token, op.spelling = [token] ∧ level.operator? token = some op ∧
      joining token = (Category.chain level).joining := by
  cases level <;> simp only [Chain.operators, List.mem_cons, List.not_mem_nil, or_false] at allowed
  all_goals
    rcases allowed with rfl | rfl | rfl
    all_goals exact ⟨_, rfl, rfl, rfl⟩

theorem operator?_eq_none {level : Chain} {token : Token}
    (behind : (Category.chain level).joining < joining token) : level.operator? token = none := by
  unfold Chain.operator?
  split <;> simp_all [Category.joining, joining]

theorem readRight_eq_none {level : Chain} {operand : Reader Token Expr} {left : Expr}
    {rest : List Token} (stops : Stops (.chain level) rest) :
    (readRight level operand left).reads rest = none := by
  cases rest with
  | nil => simp [readRight]
  | cons token rest => simp [readRight, operator?_eq_none (stops_cons.mp stops)]

theorem readComparison_spelling {op : BinaryOp} (allowed : op ∈ comparisons)
    (rest : List Token) : readComparison.reads (op.spelling ++ rest) = some (op, rest) := by
  cases op <;> simp [comparisons] at allowed <;>
    simp [readComparison, BinaryOp.spelling, comparison?]

theorem readSuffix_eq_none {expr : Reader Token Expr} {rest : List Token}
    (stops : Stops .compare rest) : (readSuffix expr).reads rest = none := by
  cases rest with
  | nil => simp [readSuffix, readCompared, readComparison, readMember, readNull]
  | cons token rest =>
    have behind := stops_cons.mp stops
    cases token with
    | symbol value =>
      cases value <;> simp [Category.joining, joining] at behind <;>
        simp [readSuffix, readCompared, readComparison, readMember, readNull, comparison?]
    | _ =>
      simp [Category.joining, joining] at behind <;>
        simp [readSuffix, readCompared, readComparison, readMember, readNull, comparison?]

/-- How what a derivation wrote is read when something else is behind it. A level that grows on the
left has come to the expression, and may go on from there. -/
def Comes (expr : Reader Token Expr) : Category → List Token → Expr → List Token → Prop
  | .chain level, tokens, e, rest =>
    Stops level.operand rest →
      Folds (level.operand.reader expr) (readRight level (level.operand.reader expr)) tokens e rest
  | category, tokens, e, rest =>
    Stops category rest → (category.reader expr).reads tokens = some (e, rest)

section Comes

variable {expr : Reader Token Expr} {tokens rest : List Token} {e : Expr}

theorem joining_operand (level : Chain) :
    level.operand.joining < (Category.chain level).joining := by
  cases level <;> decide

theorem Comes.reads {category : Category} (comes : Comes expr category tokens e rest)
    (stops : Stops category rest) : (category.reader expr).reads tokens = some (e, rest) := by
  cases category with
  | chain level =>
    rw [reader_chain]
    exact (comes (stops.mono (Nat.le_of_lt (joining_operand level)))).stop (readRight_eq_none stops)
  | _ => exact comes stops

section Lists

variable {parts : List (List Token × Expr)} (nonempty : parts ≠ [])
  (each : ∀ part ∈ parts, ∀ behind, Stops (.chain .or) behind →
    expr.reads (part.1 ++ behind) = some (part.2, behind))
include nonempty each

theorem reads_items :
    (Reader.separated expr (Reader.just (.symbol .comma))).reads
      (commas parts ++ .symbol .rightParen :: rest) =
        some (parts.map (·.2), .symbol .rightParen :: rest) := by
  refine Reader.reads_separated (Stops (.chain .or)) nonempty each ?_ ?_ ?_
  · exact fun behind => stops_cons.mpr (by decide)
  · exact stops_cons.mpr (by decide)
  · simp

theorem reads_list :
    (readList expr).reads (enclosed (commas parts) ++ rest) = some (parts.map (·.2), rest) :=
  Reader.reads_delimited (reads_items nonempty each)

end Lists

theorem readArguments_eq_none (stops : Stops .atom rest) :
    (readArguments expr).reads rest = none := by
  cases rest with
  | nil => simp [readArguments, readList, readParenthesized, Reader.delimited]
  | cons token rest =>
    have apart : token ≠ .symbol .leftParen := by
      rintro rfl
      exact absurd (stops_cons.mp stops) (by decide)
    simp [readArguments, readList, readParenthesized, Reader.delimited, apart]

theorem reads_eq_none (sound : Sound expr (Derives (.chain .or))) {token : Token}
    (closed : opening token = 3) : expr.reads (token :: rest) = none := by
  cases found : expr.reads (token :: rest) with
  | none => rfl
  | some read =>
    obtain ⟨taken, split, derives⟩ := sound _ read.1 read.2 found
    obtain ⟨first, others, rfl, within⟩ := derives.opens
    have same : token = first := by simpa using congrArg List.head? split
    rw [← same, closed] at within
    exact absurd within (by decide)

theorem Comes.reads_within {depth : Nat}
    (comes : Comes (readWithin depth) (.chain .or) tokens e rest)
    (stops : Stops (.chain .or) rest) :
    (readWithin (depth + 1)).reads tokens = some (e, rest) :=
  comes.reads stops

theorem reads_part {parts : List (List Token × Expr)} {depth : Nat}
    (enough : (commas parts).length < depth)
    (each : ∀ part ∈ parts, ∀ depth, part.1.length ≤ depth → ∀ behind,
      Comes (readWithin depth) (.chain .or) (part.1 ++ behind) part.2 behind) :
    ∀ part ∈ parts, ∀ behind, Stops (.chain .or) behind →
      (readWithin depth).reads (part.1 ++ behind) = some (part.2, behind) := by
  intro part member behind stops
  have shorter := Reader.length_le_listed (.symbol .comma) member
  cases depth with
  | zero => cases enough
  | succ depth =>
    exact (each part member depth (by unfold commas at enough; omega) behind).reads_within stops

theorem readArguments_of_list {args : List Expr}
    (list : (readList expr).reads tokens = some (args, rest)) :
    (readArguments expr).reads tokens = some (args, rest) := by
  simp [readArguments, list]

/-- The second choice for arguments is open where the parentheses hold no expression. -/
theorem readArguments_of_none {star : List Token} (sound : Sound expr (Derives (.chain .or)))
    (nothing : star = [] ∨ star = [.symbol .star]) :
    (readArguments expr).reads (enclosed star ++ rest) = some ([], rest) := by
  have closing : expr.reads (.symbol .rightParen :: rest) = none := reads_eq_none sound rfl
  have starred : expr.reads (.symbol .star :: .symbol .rightParen :: rest) = none :=
    reads_eq_none sound rfl
  rcases nothing with rfl | rfl <;>
    simp [readArguments, readList, readParenthesized, Reader.delimited, Reader.separated,
      Reader.reads_foldl, enclosed, closing, starred]

theorem readAtom_of_arguments {name : String} {args : List Expr}
    (arguments : (readArguments expr).reads tokens = some (args, rest)) :
    (readAtom expr).reads (.name name :: tokens) = some (.call name args, rest) := by
  simp [readAtom, literal?, placeholder?, readReference, name?, arguments]

theorem readAtom_enclosed {within : List Token}
    (inner : expr.reads (within ++ .symbol .rightParen :: rest) =
      some (e, .symbol .rightParen :: rest)) :
    (readAtom expr).reads (enclosed within ++ rest) = some (e, rest) := by
  have read : (readParenthesized expr).reads (enclosed within ++ rest) = some (e, rest) :=
    Reader.reads_delimited inner
  simp only [enclosed, List.cons_append] at read ⊢
  simp only [readAtom, Reader.reads_choice_cons, read]
  simp [literal?, placeholder?, readReference, name?]

theorem readRight_of_mem {level : Chain} {op : BinaryOp} {operand : Reader Token Expr}
    {left right : Expr} (allowed : op ∈ level.operators)
    (read : operand.reads tokens = some (right, rest)) :
    (readRight level operand left).reads (op.spelling ++ tokens) =
      some (.binary op left right, rest) := by
  obtain ⟨token, spelled, found, -⟩ := operator?_of_mem allowed
  simp [readRight, spelled, found, read]

theorem readSuffix_compare {op : BinaryOp} {right : Expr} (allowed : op ∈ comparisons)
    (read : (readSum expr).reads tokens = some (right, rest)) :
    (readSuffix expr).reads (op.spelling ++ tokens) = some (.compare op right, rest) := by
  simp [readSuffix, readCompared, readComparison_spelling allowed, read]

theorem readSuffix_member {items : List Expr} (negated : Bool)
    (read : (readList expr).reads tokens = some (items, rest)) :
    (readSuffix expr).reads (negation negated ++ .member :: tokens) =
      some (.member items negated, rest) := by
  cases negated <;>
    simp [readSuffix, readCompared, readComparison, readMember, negation, comparison?, read]

theorem readSuffix_null (negated : Bool) :
    (readSuffix expr).reads (.is :: negation negated ++ .literal .null :: rest) =
      some (.null negated, rest) := by
  cases negated <;>
    simp [readSuffix, readCompared, readComparison, readMember, readNull, negation, comparison?]

theorem readCompare_of_suffix {middle : List Token} {left : Expr} {suffix : Suffix}
    (first : (readSum expr).reads tokens = some (left, middle))
    (second : (readSuffix expr).reads middle = some (suffix, rest)) :
    (readCompare expr).reads tokens = some (suffix.behind left, rest) := by
  simp [readCompare, first, second]

theorem readCompare_of_none {left : Expr}
    (first : (readSum expr).reads tokens = some (left, rest))
    (second : (readSuffix expr).reads rest = none) :
    (readCompare expr).reads tokens = some (left, rest) := by
  simp [readCompare, first, second]

theorem stops_operator {level : Chain} {op : BinaryOp} (allowed : op ∈ level.operators) :
    Stops level.operand (op.spelling ++ rest) := by
  obtain ⟨token, spelled, -, joins⟩ := operator?_of_mem allowed
  rw [spelled]
  exact stops_cons.mpr (joins ▸ joining_operand level)

theorem stops_comparison {op : BinaryOp} (allowed : op ∈ comparisons) :
    Stops (.chain .sum) (op.spelling ++ rest) := by
  cases op <;> simp [comparisons] at allowed <;> exact stops_cons.mpr (by decide)

theorem stops_negation (negated : Bool) :
    Stops (.chain .sum) (negation negated ++ .member :: rest) := by
  cases negated <;> exact stops_cons.mpr (by decide)

theorem length_spelling (op : BinaryOp) : 0 < op.spelling.length := by
  cases op <;> decide

theorem Derives.just_eq_none {category : Category} (derives : Derives category tokens e)
    {token : Token} (above : category.opening < opening token) :
    (Reader.just token).reads (tokens ++ rest) = none := by
  obtain ⟨first, others, rfl, within⟩ := derives.opens
  have apart : first ≠ token := by
    rintro rfl
    omega
  simp [apart]

end Comes

theorem Derives.comes {category : Category} {tokens : List Token} {e : Expr}
    (derives : Derives category tokens e) :
    ∀ depth, tokens.length ≤ depth → ∀ rest,
      Comes (readWithin depth) category (tokens ++ rest) e rest := by
  induction derives with
  | literal value =>
    intro depth _ rest _
    simp [Category.reader, readAtom, literal?]
  | placeholder name =>
    intro depth _ rest _
    simp [Category.reader, readAtom, literal?, placeholder?]
  | column name =>
    intro depth _ rest stops
    simp [Category.reader, readAtom, literal?, placeholder?, readReference, name?,
      readArguments_eq_none stops]
  | call name nonempty each ih =>
    intro depth enough rest _
    apply readAtom_of_arguments
    apply readArguments_of_list
    apply reads_list nonempty
    apply reads_part _ ih
    simp only [enclosed, List.length_cons, List.length_append] at enough
    omega
  | callNothing name =>
    intro depth _ rest _
    exact readAtom_of_arguments (readArguments_of_none (sound_readWithin depth) (.inl rfl))
  | callStar name =>
    intro depth _ rest _
    exact readAtom_of_arguments (readArguments_of_none (sound_readWithin depth) (.inr rfl))
  | parentheses inner ih =>
    intro depth enough rest _
    apply readAtom_enclosed
    cases depth with
    | zero => cases enough
    | succ depth =>
      apply (ih depth _ _).reads_within (stops_cons.mpr (by decide))
      simp only [enclosed, List.length_cons, List.length_append] at enough
      omega
  | unsigned inner ih =>
    intro depth enough rest stops
    exact (Reader.reads_foldr_of_unsigned (inner.just_eq_none (by decide))).trans
      (ih depth enough rest stops)
  | negative inner ih =>
    intro depth enough rest stops
    have operand := ih depth (Nat.le_of_succ_le enough) rest stops
    exact Reader.reads_foldr_cons.trans (congrArg (Option.map _) operand)
  | operand inner ih =>
    intro depth enough rest stops
    exact Folds.start ((ih depth enough rest).reads stops)
  | @binary level op left right l r allowed first second ihl ihr =>
    intro depth enough rest stops
    simp only [List.length_append, List.append_assoc] at enough ⊢
    have right := (ihr depth (by omega) rest).reads stops
    refine Folds.more (ihl depth (by omega) _ (stops_operator allowed))
      (readRight_of_mem allowed right) ?_
    have written := length_spelling op
    simp only [List.length_append]
    omega
  | sum inner ih =>
    intro depth enough rest stops
    exact readCompare_of_none ((ih depth enough rest).reads (stops.mono (by decide)))
      (readSuffix_eq_none stops)
  | compare allowed first second ihl ihr =>
    intro depth enough rest stops
    simp only [List.length_append, List.append_assoc] at enough ⊢
    have right := (ihr depth (by omega) rest).reads (stops.mono (by decide))
    exact readCompare_of_suffix ((ihl depth (by omega) _).reads (stops_comparison allowed))
      (readSuffix_compare allowed right)
  | @member tokens e parts negated first nonempty each ihl ih =>
    intro depth enough rest _
    simp only [enclosed, List.length_append, List.length_cons, List.append_assoc] at enough ⊢
    have items : (readList (readWithin depth)).reads (enclosed (commas parts) ++ rest) =
        some (parts.map (·.2), rest) := reads_list nonempty (reads_part (by omega) ih)
    exact readCompare_of_suffix ((ihl depth (by omega) _).reads (stops_negation negated))
      (readSuffix_member negated items)
  | null negated first ih =>
    intro depth enough rest _
    simp only [List.length_append, List.append_assoc] at enough ⊢
    refine readCompare_of_suffix ((ih depth (by omega) _).reads ?_) (readSuffix_null negated)
    exact stops_cons.mpr (by decide)
  | positive inner ih =>
    intro depth enough rest stops
    exact (Reader.reads_foldr_of_unsigned (inner.just_eq_none (by decide))).trans
      (ih depth enough rest stops)
  | not inner ih =>
    intro depth enough rest stops
    have operand := ih depth (Nat.le_of_succ_le enough) rest stops
    exact Reader.reads_foldr_cons.trans (congrArg (Option.map _) operand)

/-! ## The reader and the grammar -/

theorem ofTokens_eq_ok {tokens : List Token} {e : Expr} :
    ofTokens tokens = .ok e ↔ (readWithin (tokens.length + 1)).reads tokens = some (e, []) := by
  unfold ofTokens Reader.reads
  split <;> simp_all

theorem derives_of_ofTokens {tokens : List Token} {e : Expr} (accepted : ofTokens tokens = .ok e) :
    Derives (.chain .or) tokens e := by
  obtain ⟨taken, split, derives⟩ := sound_readWithin _ _ _ _ (ofTokens_eq_ok.mp accepted)
  rwa [split, List.append_nil]

theorem Derives.ofTokens {tokens : List Token} {e : Expr}
    (derives : Derives (.chain .or) tokens e) : ofTokens tokens = .ok e := by
  have come := derives.comes tokens.length (Nat.le_refl _) []
  have read := come.reads_within (by simp [Stops])
  rw [List.append_nil] at read
  exact ofTokens_eq_ok.mpr read

theorem Derives.unique {tokens : List Token} {e other : Expr}
    (first : Derives (.chain .or) tokens e) (second : Derives (.chain .or) tokens other) :
    other = e :=
  Except.ok.inj (second.ofTokens.symm.trans first.ofTokens)

theorem parse_eq_ok {text : String} {e : Expr} :
    parse text = .ok e ↔
      ∃ tokens, Token.all text.toList = .ok tokens ∧ ofTokens (tokens.map (·.value)) = .ok e := by
  unfold parse
  cases Token.all text.toList with
  | error fault => simp
  | ok tokens => cases found : Expr.ofTokens (tokens.map (·.value)) <;> simp [found]

/-- Exactly the sequences of the grammar are accepted, and each with the one tree that it has. -/
theorem accepts_grammar (tokens : List Token) (e : Expr) :
    (ofTokens tokens = .ok e ↔ Derives (.chain .or) tokens e) ∧
    (ofTokens tokens = .ok e ↔ ∀ other, Derives (.chain .or) tokens other ↔ other = e) ∧
    (∀ text, parse text = .ok e ↔ ∃ located, Token.all text.toList = .ok located ∧
      Derives (.chain .or) (located.map (·.value)) e) := by
  refine ⟨⟨derives_of_ofTokens, Derives.ofTokens⟩, ?_, fun text => ?_⟩
  · constructor
    · intro accepted other
      have derives := derives_of_ofTokens accepted
      constructor
      · exact fun second => derives.unique second
      · rintro rfl
        exact derives
    · exact fun only => ((only e).mpr rfl).ofTokens
  · rw [parse_eq_ok]
    constructor
    · rintro ⟨located, found, accepted⟩
      exact ⟨located, found, derives_of_ofTokens accepted⟩
    · rintro ⟨located, found, derives⟩
      exact ⟨located, found, derives.ofTokens⟩

end Rollup.Expr
