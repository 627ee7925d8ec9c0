import Rollup.Proofs.Sql.Grammar

/-! Reading expressions of statements back.

The reader climbs: behind an operand it takes every operator and test that binds strongly enough
for the place, and so comes to one expression after another on the left. Whatever the grammar
derives is read as it is derived, so that tokens have no more than one derivation.
-/

set_option autoImplicit false

namespace Rollup.Sql.Grammar

open Reader

/-! ## The reader -/

def infix? : Token → Option BinaryOp
  | .mark .eq => some .eq
  | .mark .ne => some .ne
  | .mark .lt => some .lt
  | .mark .gt => some .gt
  | .mark .lte => some .lte
  | .mark .gte => some .gte
  | .mark .like => some .like
  | .mark .and => some .and
  | .mark .or => some .or
  | .mark .plus => some .plus
  | .mark .minus => some .minus
  | .mark .times => some .times
  | .mark .divide => some .divide
  | .mark .modulo => some .modulo
  | _ => none

def literal? : Token → Option Expr
  | .int n => some (.literal (.int n))
  | .float x => some (.literal (.float x))
  | .string text => some (.literal (.string text))
  | .bool value => some (.literal (.bool value))
  | .null => some (.literal .null)
  | _ => none

def name? : Token → Option String
  | .name text => some text
  | _ => none

def function? : Token → Option String
  | .function name => some name
  | _ => none

def int? : Token → Option Int
  | .int n => some n
  | _ => none

def verbatim? : Token → Option String
  | .verbatim text => some text
  | _ => none

def string? : Token → Option String
  | .string text => some text
  | _ => none

def member? : Token → Option (String → Expr)
  | .name text => some fun table => .column (some table) text
  | .mark .star => some fun table => .star (some table)
  | _ => none

def nullTest? : Token → Option Bool
  | .mark .isNull => some false
  | .mark .isNotNull => some true
  | _ => none

def direction? : Token → Option Direction
  | .mark .ascending => some .ascending
  | .mark .descending => some .descending
  | _ => none

def readParenthesized {α : Type} (reader : Reader Token α) : Reader Token α :=
  delimited (just (.mark .leftParen)) reader (just (.mark .rightParen))

def orNothing {α : Type} (reader : Reader Token (List α)) : Reader Token (List α) := do
  match ← optional reader with
  | some parts => return parts
  | none => return []

def readOperator : Reader Token BinaryOp :=
  orElse (select infix?) do
    just (.mark .not)
    just (.mark .like)
    return .notLike

def guarded {α : Type} (allowed : Prop) [Decidable allowed] (reader : Reader Token α) :
    Reader Token α :=
  if allowed then reader else fail

def readNull (left : Expr) : Reader Token Expr := do
  let negated ← select nullTest?
  return .isNull left negated

def readQualified : Reader Token Expr := do
  let first ← select name?
  match ← optional (do just (.mark .dot); select member?) with
  | some member => return member first
  | none => return .column none first

def readInterval : Reader Token Expr := do
  just (.mark .interval)
  let count ← select int?
  return .interval count (← select verbatim?)

def readTyped : Reader Token Expr := do
  let type ← select verbatim?
  return .typed type (← select string?)

section Levels

-- the reader of expressions of at least some binding strength, inside this one
variable (inner : Nat → Reader Token Expr)

def readAll : Reader Token (List Expr) :=
  separated (inner 1) (just (.mark .comma))

def readInfix (least : Nat) (left : Expr) : Reader Token Expr := do
  let op ← readOperator
  guarded (least ≤ strength op) do
    return .binary op left (← inner (strength op + 1))

def readMember (left : Expr) : Reader Token Expr := do
  let negated ← optional (just (.mark .not))
  just (.mark .member)
  return .inList left (← readParenthesized (readAll inner)) negated.isSome

def readSortKey : Reader Token (SortKey Expr) := do
  let key ← inner 1
  return ⟨key, ← optional (select direction?)⟩

def readClause {α : Type} (keyword : Mark) (parts : Reader Token (List α)) :
    Reader Token (List α) :=
  orNothing do
    just (.mark keyword)
    parts

def readOver (left : Expr) : Reader Token Expr := do
  let partitionBy ← readClause .partitionBy (readAll inner)
  let orderBy ← readClause .orderBy (separated (readSortKey inner) (just (.mark .comma)))
  return .window left partitionBy orderBy

def readWindow (left : Expr) : Reader Token Expr := do
  just (.mark .over)
  readParenthesized (readOver inner left)

/-- What goes on from an expression to a larger one of at least some strength. -/
def readStep (least : Nat) (left : Expr) : Reader Token Expr :=
  choice [readInfix inner least left, guarded (least ≤ 4) (readMember inner left),
    guarded (least ≤ 4) (readNull left), guarded (least ≤ 8) (readWindow inner left)]

def readArguments (name : String) : Reader Token Expr := do
  let distinct ← optional (just (.mark .distinct))
  let args ← orNothing (readAll inner)
  return .function name args distinct.isSome

def readCall : Reader Token Expr := do
  let name ← select function?
  readParenthesized (readArguments inner name)

def readSigned (sign : Mark) (op : UnaryOp) (bound : Nat) : Reader Token Expr := do
  just (.mark sign)
  return .unary op (← inner bound)

def readOperand : Reader Token Expr :=
  choice [select literal?, readQualified, (fun _ => .star none) <$> just (.mark .star),
    readInterval, readTyped, readCall inner, readSigned inner .not .not 3,
    readSigned inner .minus .minus 7, readParenthesized (inner 1)]

end Levels

def readAt : Nat → Nat → Reader Token Expr
  | 0, _ => fail
  | fuel + 1, least => foldl (readOperand (readAt fuel)) (readStep (readAt fuel) least)

/-! ## Where an expression ends -/

/-- The strength of what a token begins behind an expression. A dot continues a name. -/
def joining : Token → Nat
  | .mark .or => 1
  | .mark .and => 2
  | .mark .eq | .mark .ne | .mark .lt | .mark .gt | .mark .lte | .mark .gte => 4
  | .mark .like | .mark .not | .mark .member | .mark .isNull | .mark .isNotNull => 4
  | .mark .plus | .mark .minus => 5
  | .mark .times | .mark .divide | .mark .modulo => 6
  | .mark .over => 8
  | .mark .dot => 10
  | _ => 0

/-- Nothing ahead goes on from an expression of at least some strength. -/
def Ends (least : Nat) (rest : List Token) : Prop :=
  ∀ token ∈ rest.head?, joining token < least

theorem Ends.mono {least other : Nat} {rest : List Token} (ends : Ends least rest)
    (looser : least ≤ other) : Ends other rest :=
  fun token head => Nat.lt_of_lt_of_le (ends token head) looser

theorem ends_cons {least : Nat} {token : Token} {rest : List Token} :
    Ends least (token :: rest) ↔ joining token < least := by
  simp [Ends]

theorem joining_of_infix? {token : Token} {op : BinaryOp} (found : infix? token = some op) :
    joining token = strength op := by
  unfold infix? at found
  split at found <;> first | cases found; rfl | cases found

theorem joining_of_readOperator {token : Token} {rest others : List Token} {op : BinaryOp}
    (read : readOperator.reads (token :: rest) = some (op, others)) :
    joining token = strength op := by
  rw [readOperator, reads_orElse, Option.or_eq_some_iff] at read
  cases read with
  | inl single =>
    obtain ⟨_, same, found⟩ := reads_select_eq_some.mp single
    cases same
    exact joining_of_infix? found
  | inr double =>
    obtain ⟨_, _, start, double⟩ := reads_bind_eq_some.mp double.2
    obtain ⟨_, _, _, double⟩ := reads_bind_eq_some.mp double
    obtain ⟨rfl, -⟩ := reads_pure_eq_some.mp double
    cases reads_just_eq_some.mp start
    rfl

theorem eq_of_nullTest? {token : Token} {negated : Bool} (found : nullTest? token = some negated) :
    token = .mark .isNull ∨ token = .mark .isNotNull := by
  unfold nullTest? at found
  split at found <;> simp_all

section Steps

variable {inner : Nat → Reader Token Expr} {least : Nat} {left : Expr}

theorem readInfix_eq_none {token : Token} {rest : List Token} (looser : joining token < least) :
    (readInfix inner least left).reads (token :: rest) = none := by
  cases found : readOperator.reads (token :: rest) with
  | none => simp [readInfix, found]
  | some read =>
    have apart : ¬ least ≤ strength read.1 := by
      have same := joining_of_readOperator found
      omega
    simp [readInfix, found, guarded, apart]

theorem reads_guarded_eq_none {allowed : Prop} [Decidable allowed] {reader : Reader Token Expr}
    {tokens : List Token} (stopped : allowed → reader.reads tokens = none) :
    (guarded allowed reader).reads tokens = none := by
  unfold guarded
  split
  · rename_i yes
    exact stopped yes
  · rfl

theorem readStep_eq_none {rest : List Token} (ends : Ends least rest) :
    (readStep inner least left).reads rest = none := by
  cases rest with
  | nil =>
    simp [readStep, readInfix, readOperator, readMember, readNull, readWindow,
      reads_guarded_eq_none]
  | cons token rest =>
    have looser := ends_cons.mp ends
    have apart (mark : Mark) (stronger : least ≤ joining (.mark mark)) : token ≠ .mark mark := by
      rintro rfl
      omega
    have member (allowed : least ≤ 4) : (readMember inner left).reads (token :: rest) = none := by
      simp [readMember, apart .not allowed, apart .member allowed]
    have null (allowed : least ≤ 4) : (readNull left).reads (token :: rest) = none := by
      cases found : nullTest? token with
      | none => simp [readNull, found]
      | some negated =>
        obtain rfl | rfl := eq_of_nullTest? found
        · exact absurd rfl (apart .isNull allowed)
        · exact absurd rfl (apart .isNotNull allowed)
    have window (allowed : least ≤ 8) : (readWindow inner left).reads (token :: rest) = none := by
      simp [readWindow, apart .over allowed]
    simp [readStep, readInfix_eq_none looser, reads_guarded_eq_none member,
      reads_guarded_eq_none null, reads_guarded_eq_none window]

variable {tokens rest : List Token}

theorem readOperator_spelling (op : BinaryOp) :
    readOperator.reads (spelling op ++ rest) = some (op, rest) := by
  cases op <;> simp [readOperator, spelling, infix?]

theorem readStep_binary {op : BinaryOp} {right : Expr} (allowed : least ≤ strength op)
    (read : (inner (strength op + 1)).reads tokens = some (right, rest)) :
    (readStep inner least left).reads (spelling op ++ tokens) =
      some (.binary op left right, rest) := by
  simp [readStep, readInfix, readOperator_spelling, guarded, allowed, read]

theorem readStep_member {items : List Expr} (negated : Bool) (allowed : least ≤ 4)
    (read : (readParenthesized (readAll inner)).reads tokens = some (items, rest)) :
    (readStep inner least left).reads (negation negated ++ .mark .member :: tokens) =
      some (.inList left items negated, rest) := by
  cases negated <;>
    simp [readStep, readInfix, readOperator, infix?, negation, guarded, allowed, readMember, read]

theorem readStep_null (negated : Bool) (allowed : least ≤ 4) :
    (readStep inner least left).reads
      (.mark (if negated then .isNotNull else .isNull) :: rest) =
        some (.isNull left negated, rest) := by
  cases negated <;>
    simp [readStep, readInfix, readOperator, infix?, guarded, allowed, readMember, readNull,
      nullTest?]

theorem readStep_window {whole : Expr} (allowed : least ≤ 8)
    (read : (readParenthesized (readOver inner left)).reads tokens = some (whole, rest)) :
    (readStep inner least left).reads (.mark .over :: tokens) = some (whole, rest) := by
  have member :
      (guarded (least ≤ 4) (readMember inner left)).reads (.mark .over :: tokens) = none :=
    reads_guarded_eq_none fun _ => by simp [readMember]
  have null : (guarded (least ≤ 4) (readNull left)).reads (.mark .over :: tokens) = none :=
    reads_guarded_eq_none fun _ => by simp [readNull, nullTest?]
  have window : (guarded (least ≤ 8) (readWindow inner left)).reads (.mark .over :: tokens) =
      some (whole, rest) := by
    simp [guarded, allowed, readWindow, read]
  simp [readStep, readInfix, readOperator, infix?, member, null, window]

end Steps

section Operands

variable {inner : Nat → Reader Token Expr} {tokens rest : List Token} {e : Expr}

theorem readOperand_literal (value : Literal) :
    (readOperand inner).reads (value.token :: rest) = some (.literal value, rest) := by
  cases value <;> simp [readOperand, Literal.token, literal?]

theorem readOperand_column (table : Option String) (name : String) (ends : Ends 9 rest) :
    (readOperand inner).reads (qualified table (.name name) ++ rest) =
      some (.column table name, rest) := by
  cases table with
  | some table => simp [readOperand, readQualified, qualified, literal?, name?, member?]
  | none =>
    cases rest with
    | nil => simp [readOperand, readQualified, qualified, literal?, name?]
    | cons token rest =>
      have apart : token ≠ .mark .dot := by
        rintro rfl
        exact absurd (ends_cons.mp ends) (by decide)
      simp [readOperand, readQualified, qualified, literal?, name?, apart]

theorem readOperand_star (table : Option String) :
    (readOperand inner).reads (qualified table (.mark .star) ++ rest) =
      some (.star table, rest) := by
  cases table <;> simp [readOperand, readQualified, qualified, literal?, name?, member?]

theorem readOperand_interval (count : Int) (unit : String) :
    (readOperand inner).reads (.mark .interval :: .int count :: .verbatim unit :: rest) =
      some (.interval count unit, rest) := by
  simp [readOperand, readQualified, literal?, name?, readInterval, int?, verbatim?]

theorem readOperand_typed (type text : String) :
    (readOperand inner).reads (.verbatim type :: .string text :: rest) =
      some (.typed type text, rest) := by
  simp [readOperand, readQualified, literal?, name?, readInterval, readTyped, verbatim?, string?]

theorem readOperand_call {name : String}
    (read : (readParenthesized (readArguments inner name)).reads tokens = some (e, rest)) :
    (readOperand inner).reads (.function name :: tokens) = some (e, rest) := by
  simp [readOperand, readQualified, literal?, name?, readInterval, readTyped, verbatim?, readCall,
    function?, read]

theorem readOperand_not (read : (inner 3).reads tokens = some (e, rest)) :
    (readOperand inner).reads (.mark .not :: tokens) = some (.unary .not e, rest) := by
  simp [readOperand, readQualified, literal?, name?, readInterval, readTyped, verbatim?, readCall,
    function?, readSigned, read]

theorem readOperand_minus (read : (inner 7).reads tokens = some (e, rest)) :
    (readOperand inner).reads (.mark .minus :: tokens) = some (.unary .minus e, rest) := by
  simp [readOperand, readQualified, literal?, name?, readInterval, readTyped, verbatim?, readCall,
    function?, readSigned, read]

theorem readOperand_parentheses
    (read : (inner 1).reads (tokens ++ .mark .rightParen :: rest) =
      some (e, .mark .rightParen :: rest)) :
    (readOperand inner).reads (enclosed tokens ++ rest) = some (e, rest) := by
  have parens : (readParenthesized (inner 1)).reads (enclosed tokens ++ rest) = some (e, rest) :=
    reads_delimited read
  simp only [enclosed, List.cons_append] at parens ⊢
  simp only [readOperand, reads_choice_cons, parens]
  simp [readQualified, literal?, name?, readInterval, readTyped, verbatim?, readCall, function?,
    readSigned]

theorem readAt_eq_none {mark : Mark} (closed : mark = .rightParen ∨ mark = .distinct)
    (fuel least : Nat) : (readAt fuel least).reads (.mark mark :: rest) = none := by
  cases fuel with
  | zero => rfl
  | succ fuel =>
    apply reads_foldl_of_none
    rcases closed with rfl | rfl <;>
      simp [readOperand, readQualified, literal?, name?, readInterval, readTyped, verbatim?,
        readCall, function?, readSigned, readParenthesized, delimited]

end Operands

/-! ## Derivations are read -/

/-- With enough fuel, reading at any strength that what was derived has comes to it. -/
def Comes (bound : Nat) (tokens : List Token) (e : Expr) : Prop :=
  ∀ fuel least rest, tokens.length ≤ fuel → least ≤ bound → Ends (bound + 1) rest →
    Folds (readOperand (readAt fuel)) (readStep (readAt fuel) least) (tokens ++ rest) e rest

theorem Comes.reads {bound least fuel : Nat} {tokens rest : List Token} {e : Expr}
    (comes : Comes bound tokens e) (enough : tokens.length < fuel) (within : least ≤ bound)
    (ends : Ends least rest) : (readAt fuel least).reads (tokens ++ rest) = some (e, rest) := by
  cases fuel with
  | zero => omega
  | succ fuel =>
    exact (comes fuel least rest (Nat.le_of_lt_succ enough) within (ends.mono (by omega))).stop
      (readStep_eq_none ends)

section Lists

variable {fuel : Nat} {parts : List (List Token × Expr)}
  {orders : List (List Token × SortKey Expr)} {rest : List Token}

theorem length_le_commas {α : Type} {parts : List (List Token × α)} {part : List Token × α}
    (member : part ∈ parts) : part.1.length ≤ (commas parts).length :=
  length_le_listed (.mark .comma : Token) member

theorem reads_all (nonempty : parts ≠ []) (enough : (commas parts).length < fuel)
    (each : ∀ part ∈ parts, Comes 1 part.1 part.2) (ends : Ends 1 rest)
    (last : (just (.mark .comma)).reads rest = none) :
    (readAll (readAt fuel)).reads (commas parts ++ rest) = some (parts.map (·.2), rest) := by
  refine reads_separated (Ends 1) nonempty (fun part member behind ends => ?_) ?_ ends last
  · have shorter := length_le_commas member
    exact (each part member).reads (by omega) (Nat.le_refl 1) ends
  · exact fun behind => ends_cons.mpr (by decide)

theorem reads_orNothing_some {α : Type} {reader : Reader Token (List α)} {tokens : List Token}
    {values : List α} (read : reader.reads tokens = some (values, rest)) :
    (orNothing reader).reads tokens = some (values, rest) := by
  simp [orNothing, read]

theorem reads_orNothing_none {α : Type} {reader : Reader Token (List α)}
    (stopped : reader.reads rest = none) : (orNothing reader).reads rest = some ([], rest) := by
  simp [orNothing, stopped]

theorem distinct_eq_none (each : ∀ part ∈ parts, Comes 1 part.1 part.2) :
    (just (.mark .distinct)).reads (commas parts ++ .mark .rightParen :: rest) = none := by
  cases parts with
  | nil => simp [commas, listed]
  | cons part others =>
    have ends : Ends 1 (.mark .rightParen :: rest) := ends_cons.mpr (by decide)
    have read := reads_all (List.cons_ne_nil part others) (Nat.lt_succ_self _) each ends (by simp)
    cases tokens : commas (part :: others) ++ .mark .rightParen :: rest with
    | nil => rfl
    | cons token behind =>
      have apart : token ≠ .mark .distinct := by
        rintro rfl
        rw [tokens, readAll, separated, reads_foldl_of_none] at read
        · cases read
        · simp [readAt_eq_none (.inr rfl)]
      simp [apart]

theorem reads_arguments {name : String} {distinct : Bool}
    (enough : (commas parts).length < fuel)
    (each : ∀ part ∈ parts, Comes 1 part.1 part.2) :
    (readArguments (readAt fuel) name).reads
        (quantifier distinct ++ commas parts ++ .mark .rightParen :: rest) =
      some (.function name (parts.map (·.2)) distinct, .mark .rightParen :: rest) := by
  have args : (orNothing (readAll (readAt fuel))).reads
        (commas parts ++ .mark .rightParen :: rest) =
      some (parts.map (·.2), .mark .rightParen :: rest) := by
    by_cases empty : parts = []
    · subst empty
      apply reads_orNothing_none
      apply reads_foldl_of_none
      simp [commas, listed, readAt_eq_none (.inl rfl)]
    · apply reads_orNothing_some
      exact reads_all empty enough each (ends_cons.mpr (by decide)) (by simp)
  cases distinct with
  | true => simp [readArguments, quantifier, args]
  | false => simp [readArguments, quantifier, args, distinct_eq_none each]

theorem reads_clause {α : Type} {keyword : Mark} {reader : Reader Token (List α)}
    {parts : List (List Token × α)} (apart : (just (.mark keyword)).reads rest = none)
    (read : parts ≠ [] → reader.reads (commas parts ++ rest) = some (parts.map (·.2), rest)) :
    (readClause keyword reader).reads (clause keyword parts ++ rest) =
      some (parts.map (·.2), rest) := by
  cases parts with
  | nil => exact reads_orNothing_none (by simp [clause, apart])
  | cons part others => exact reads_orNothing_some (by simp [clause, read])

theorem reads_sortKey {order : List Token × SortKey Expr} (enough : order.1.length < fuel)
    (comes : Comes 1 order.1 order.2.key) (ends : Ends 1 rest)
    (last : (select direction?).reads rest = none) :
    (readSortKey (readAt fuel)).reads ((sortKey order).1 ++ rest) = some (order.2, rest) := by
  obtain ⟨tokens, key, towards⟩ := order
  have behind : Ends 1 (direction towards ++ rest) := by
    cases towards with
    | none => exact ends
    | some towards => cases towards <;> exact ends_cons.mpr (by decide)
  have read := comes.reads enough (Nat.le_refl 1) behind
  have found : (optional (select direction?)).reads (direction towards ++ rest) =
      some (towards, rest) := by
    cases towards with
    | none => simp [direction, last]
    | some towards => cases towards <;> simp [direction, direction?]
  rw [reads_optional] at found
  simp [readSortKey, sortKey, read, Option.some.inj found]

theorem map_sortKey (orders : List (List Token × SortKey Expr)) :
    (orders.map sortKey).map (·.2) = orders.map (·.2) := by
  rw [List.map_map]
  rfl

theorem reads_orders (nonempty : orders ≠ [])
    (enough : (commas (orders.map sortKey)).length < fuel)
    (each : ∀ order ∈ orders, Comes 1 order.1 order.2.key) :
    (separated (readSortKey (readAt fuel)) (just (.mark .comma))).reads
        (commas (orders.map sortKey) ++ .mark .rightParen :: rest) =
      some (orders.map (·.2), .mark .rightParen :: rest) := by
  rw [← map_sortKey]
  refine reads_separated
    (fun behind => Ends 1 behind ∧ (select direction?).reads behind = none)
    (by simpa using nonempty) (fun part member behind ends => ?_) ?_ ?_ ?_
  · have shorter := length_le_commas member
    obtain ⟨order, within, rfl⟩ := List.mem_map.mp member
    refine reads_sortKey ?_ (each order within) ends.1 ends.2
    simp only [sortKey, List.length_append] at shorter
    omega
  · exact fun behind => ⟨ends_cons.mpr (by decide), by simp [direction?]⟩
  · exact ⟨ends_cons.mpr (by decide), by simp [direction?]⟩
  · simp

theorem reads_over {left : Expr} (enoughParts : (commas parts).length < fuel)
    (enoughOrders : (commas (orders.map sortKey)).length < fuel)
    (eachPart : ∀ part ∈ parts, Comes 1 part.1 part.2)
    (eachOrder : ∀ order ∈ orders, Comes 1 order.1 order.2.key) :
    (readOver (readAt fuel) left).reads
        (clause .partitionBy parts ++ clause .orderBy (orders.map sortKey) ++
          .mark .rightParen :: rest) =
      some (.window left (parts.map (·.2)) (orders.map (·.2)), .mark .rightParen :: rest) := by
  have orderBy : (readClause .orderBy
      (separated (readSortKey (readAt fuel)) (just (.mark .comma)))).reads
        (clause .orderBy (orders.map sortKey) ++ .mark .rightParen :: rest) =
      some ((orders.map sortKey).map (·.2), .mark .rightParen :: rest) := by
    refine reads_clause (by simp) fun nonempty => ?_
    rw [map_sortKey]
    exact reads_orders (by simpa using nonempty) enoughOrders eachOrder
  -- behind the partition is the keyword of the order or the end of the window
  have behind : ∃ token others, joining token = 0 ∧ token ≠ .mark .comma ∧
      token ≠ .mark .partitionBy ∧
      clause .orderBy (orders.map sortKey) ++ .mark .rightParen :: rest = token :: others := by
    cases orders with
    | nil => exact ⟨_, _, rfl, by decide, by decide, rfl⟩
    | cons => exact ⟨_, _, rfl, by decide, by decide, rfl⟩
  obtain ⟨token, others, loose, comma, partition, split⟩ := behind
  have partitionBy : (readClause .partitionBy (readAll (readAt fuel))).reads
      (clause .partitionBy parts ++ token :: others) = some (parts.map (·.2), token :: others) := by
    refine reads_clause (by simp [partition]) fun nonempty => ?_
    exact reads_all nonempty enoughParts eachPart (ends_cons.mpr (by omega)) (by simp [comma])
  rw [split, map_sortKey] at orderBy
  rw [List.append_assoc, split]
  simp [readOver, partitionBy, orderBy]

end Lists

theorem reads_enclosed {α : Type} {reader : Reader Token α} {within rest : List Token} {value : α}
    (read : reader.reads (within ++ .mark .rightParen :: rest) =
      some (value, .mark .rightParen :: rest)) :
    (readParenthesized reader).reads (enclosed within ++ rest) = some (value, rest) :=
  reads_delimited read

theorem length_enclosed (within : List Token) : (enclosed within).length = within.length + 2 := by
  simp [enclosed]

theorem length_commas_le {α : Type} (keyword : Mark) (parts : List (List Token × α)) :
    (commas parts).length ≤ (clause keyword parts).length := by
  cases parts with
  | nil => exact Nat.le_refl 0
  | cons => exact Nat.le_succ _

theorem length_spelling (op : BinaryOp) : 0 < (spelling op).length := by
  cases op <;> decide

theorem ends_spelling (op : BinaryOp) {rest : List Token} :
    Ends (strength op + 1) (spelling op ++ rest) := by
  cases op <;> exact ends_cons.mpr (by decide)

theorem ends_negation (negated : Bool) {rest : List Token} :
    Ends 5 (negation negated ++ .mark .member :: rest) := by
  cases negated <;> exact ends_cons.mpr (by decide)

theorem joining_ne (token : Token) : joining token ≠ 3 ∧ joining token ≠ 7 := by
  unfold joining
  split <;> decide

theorem Ends.under_not {rest : List Token} (ends : Ends 4 rest) : Ends 3 rest := by
  intro token head
  have := ends token head
  have := (joining_ne token).1
  omega

theorem Ends.under_minus {rest : List Token} (ends : Ends 8 rest) : Ends 7 rest := by
  intro token head
  have := ends token head
  have := (joining_ne token).2
  omega

/-- What the grammar derives is read: by induction on the derivation, whose rules put each operator
behind a left operand that the reader has already come to. -/
theorem Derives.comes {bound : Nat} {tokens : List Token} {e : Expr}
    (derives : Derives bound tokens e) : Comes bound tokens e := by
  induction derives with
  | looser inner ih =>
    intro fuel least rest enough within ends
    exact ih fuel least rest enough (by omega) (ends.mono (by omega))
  | @binary op left right l r first second ihl ihr =>
    intro fuel least rest enough within ends
    simp only [List.length_append, List.append_assoc] at enough ⊢
    have spelled := length_spelling op
    have right : (readAt fuel (strength op + 1)).reads (right ++ rest) = some (r, rest) :=
      ihr.reads (by omega) (Nat.le_refl _) ends
    refine Folds.more (ihl fuel least _ (by omega) within (ends_spelling op))
      (readStep_binary within right) ?_
    simp only [List.length_append]
    omega
  | not inner ih =>
    intro fuel least rest enough within ends
    exact Folds.start (readOperand_not (ih.reads enough (Nat.le_refl 3) ends.under_not))
  | minus inner ih =>
    intro fuel least rest enough within ends
    exact Folds.start (readOperand_minus (ih.reads enough (Nat.le_refl 7) ends.under_minus))
  | @inList tokens e parts negated first nonempty each ih iheach =>
    intro fuel least rest enough within ends
    simp only [List.length_append, List.length_cons, length_enclosed, List.append_assoc,
      List.cons_append] at enough ⊢
    have values : (readParenthesized (readAll (readAt fuel))).reads
        (enclosed (commas parts) ++ rest) = some (parts.map (·.2), rest) :=
      reads_enclosed (reads_all nonempty (by omega) iheach (ends_cons.mpr (by decide)) (by simp))
    refine Folds.more (ih fuel least _ (by omega) within (ends_negation negated))
      (readStep_member negated within values) ?_
    simp only [List.length_append, List.length_cons]
    omega
  | isNull negated first ih =>
    intro fuel least rest enough within ends
    simp only [List.length_append, List.append_assoc] at enough ⊢
    refine Folds.more (ih fuel least _ (by omega) within ?_) (readStep_null negated within)
      (Nat.lt_succ_self _)
    cases negated <;> exact ends_cons.mpr (by decide)
  | column table name =>
    intro fuel least rest enough within ends
    exact Folds.start (readOperand_column table name ends)
  | star table =>
    intro fuel least rest enough within ends
    exact Folds.start (readOperand_star table)
  | literal value =>
    intro fuel least rest enough within ends
    exact Folds.start (readOperand_literal value)
  | interval count unit =>
    intro fuel least rest enough within ends
    exact Folds.start (readOperand_interval count unit)
  | typed type text =>
    intro fuel least rest enough within ends
    exact Folds.start (readOperand_typed type text)
  | parentheses inner ih =>
    intro fuel least rest enough within ends
    rw [length_enclosed] at enough
    apply Folds.start
    apply readOperand_parentheses
    exact ih.reads (by omega) (Nat.le_refl 1) (ends_cons.mpr (by decide))
  | @window tokens call parts orders first eachPart eachOrder ih ihp iho =>
    intro fuel least rest enough within ends
    simp only [List.length_append, List.length_cons, length_enclosed, List.append_assoc,
      List.cons_append] at enough ⊢
    have partition := length_commas_le .partitionBy parts
    have order := length_commas_le .orderBy (orders.map sortKey)
    have clauses : (readParenthesized (readOver (readAt fuel) call)).reads
        (enclosed (clause .partitionBy parts ++ clause .orderBy (orders.map sortKey)) ++ rest) =
          some (.window call (parts.map (·.2)) (orders.map (·.2)), rest) :=
      reads_enclosed (reads_over (by omega) (by omega) ihp iho)
    refine Folds.more (ih fuel least _ (by omega) (by omega) (ends_cons.mpr (by decide)))
      (readStep_window within clauses) ?_
    simp only [List.length_append, List.length_cons]
    omega
  | function name distinct each ih =>
    intro fuel least rest enough within ends
    simp only [List.length_cons, length_enclosed, List.length_append] at enough
    apply Folds.start
    apply readOperand_call
    exact reads_enclosed (reads_arguments (by omega) ih)

/-! ## One derivation for the tokens of an expression -/

theorem Derives.reads {tokens : List Token} {e : Expr} (derives : Derives 1 tokens e) :
    (readAt (tokens.length + 1) 1).reads tokens = some (e, []) := by
  have read := derives.comes.reads (Nat.lt_succ_self tokens.length) (Nat.le_refl 1)
    (show Ends 1 [] by simp [Ends])
  rwa [List.append_nil] at read

theorem Derives.unique {tokens : List Token} {e other : Expr} (first : Derives 1 tokens e)
    (second : Derives 1 tokens other) : other = e := by
  have same := second.reads.symm.trans first.reads
  exact congrArg Prod.fst (Option.some.inj same)

end Rollup.Sql.Grammar

namespace Rollup.Sql.Expr

open Grammar

theorem derives_tokens (e : Expr) (wellFormed : WellFormed e) : Derives 1 (visible e.tokens) e :=
  (derives_level e wellFormed).mono (one_le_level e)

/-- What an expression is written with is read as that expression and as no other one, whatever
spaces are left out; so no two expressions are written alike. -/
theorem tokens_unambiguous (e : Expr) (wellFormed : WellFormed e) :
    (∀ other, Derives 1 (visible e.tokens) other ↔ other = e) ∧
    (∀ other, WellFormed other → visible other.tokens = visible e.tokens → other = e) := by
  have derives := derives_tokens e wellFormed
  constructor
  · intro other
    constructor
    · exact fun second => derives.unique second
    · rintro rfl
      exact derives
  · intro other readable same
    have second := derives_tokens other readable
    rw [same] at second
    exact derives.unique second

def lessDifference : Expr :=
  .inList
    (.binary .minus (.window (apply "last_value" [named "a"]) [named "h"] [⟨named "t", none⟩])
      (.binary .minus (named "b") (.unary .minus (named "c"))))
    [ofInt 1, .binary .or (named "d") (.isNull (named "e") true)] true

theorem tokens_unambiguous_lessDifference :
    WellFormed lessDifference ∧
    (∀ other, Derives 1 (visible lessDifference.tokens) other ↔ other = lessDifference) ∧
    (∀ other, WellFormed other → visible other.tokens = visible lessDifference.tokens →
      other = lessDifference) :=
  ⟨by decide, tokens_unambiguous lessDifference (by decide)⟩

end Rollup.Sql.Expr
