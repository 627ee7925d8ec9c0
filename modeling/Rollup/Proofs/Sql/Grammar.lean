import Rollup.Proofs.Reader
import Rollup.Proofs.Sql.Expr

/-! The grammar of expressions in statements.

`Derives` gives binding strengths to the operators and has no rule about where parentheses stand
but that they may stand around any expression. What an expression is written with derives it at
its own strength: an operand that binds too loosely for its place is in parentheses.
-/

set_option autoImplicit false

namespace Rollup.Sql

/-- The tokens that carry meaning. -/
def visible (tokens : List Token) : List Token :=
  tokens.filter (!·.isBlank)

@[simp]
theorem visible_append (left right : List Token) :
    visible (left ++ right) = visible left ++ visible right :=
  List.filter_append ..

@[simp]
theorem visible_nil : visible [] = [] := rfl

@[simp]
theorem visible_space (tokens : List Token) : visible (.space :: tokens) = visible tokens := rfl

@[simp]
theorem visible_mark (mark : Mark) (tokens : List Token) :
    visible (.mark mark :: tokens) = .mark mark :: visible tokens := rfl

@[simp]
theorem visible_function (name : String) (tokens : List Token) :
    visible (.function name :: tokens) = .function name :: visible tokens := rfl

namespace Grammar

open Reader (listed)

/-- How strongly an operator binds. -/
def strength : BinaryOp → Nat
  | .or => 1
  | .and => 2
  | .eq | .ne | .lt | .gt | .lte | .gte | .like | .notLike => 4
  | .plus | .minus => 5
  | .times | .divide | .modulo => 6

def spelling : BinaryOp → List Token
  | .eq => [.mark .eq]
  | .ne => [.mark .ne]
  | .lt => [.mark .lt]
  | .gt => [.mark .gt]
  | .lte => [.mark .lte]
  | .gte => [.mark .gte]
  | .like => [.mark .like]
  | .notLike => [.mark .not, .mark .like]
  | .and => [.mark .and]
  | .or => [.mark .or]
  | .plus => [.mark .plus]
  | .minus => [.mark .minus]
  | .times => [.mark .times]
  | .divide => [.mark .divide]
  | .modulo => [.mark .modulo]

def enclosed (within : List Token) : List Token :=
  .mark .leftParen :: within ++ [.mark .rightParen]

def commas {α : Type} (parts : List (List Token × α)) : List Token :=
  listed (.mark .comma) parts

def negation (negated : Bool) : List Token :=
  if negated then [.mark .not] else []

def quantifier (distinct : Bool) : List Token :=
  if distinct then [.mark .distinct] else []

def direction : Option Direction → List Token
  | none => []
  | some .ascending => [.mark .ascending]
  | some .descending => [.mark .descending]

def sortKey (order : List Token × SortKey Expr) : List Token × SortKey Expr :=
  (order.1 ++ direction order.2.direction, order.2)

/-- A clause of a window; without a part it is absent. -/
def clause {α : Type} (keyword : Mark) (parts : List (List Token × α)) : List Token :=
  if parts.isEmpty then [] else .mark keyword :: commas parts

def qualified (table : Option String) (last : Token) : List Token :=
  match table with
  | none => [last]
  | some table => [.name table, .mark .dot, last]

/-- What tokens write at a binding strength: 1 for `OR`, 2 for `AND`, 3 for `NOT`, 4 for
comparisons, `IN` and `IS NULL`, 5 for sums, 6 for products, 7 for the sign, 8 for what needs no
parentheses, and 9 for the calls among that. Operators and tests associate to the left. -/
inductive Derives : Nat → List Token → Expr → Prop where
  | looser {bound : Nat} {tokens : List Token} {e : Expr} (inner : Derives (bound + 1) tokens e) :
      Derives bound tokens e
  | binary {op : BinaryOp} {left right : List Token} {l r : Expr}
      (first : Derives (strength op) left l) (second : Derives (strength op + 1) right r) :
      Derives (strength op) (left ++ spelling op ++ right) (.binary op l r)
  | not {tokens : List Token} {e : Expr} (inner : Derives 3 tokens e) :
      Derives 3 (.mark .not :: tokens) (.unary .not e)
  | inList {tokens : List Token} {e : Expr} {parts : List (List Token × Expr)} (negated : Bool)
      (first : Derives 4 tokens e) (nonempty : parts ≠ [])
      (each : ∀ part ∈ parts, Derives 1 part.1 part.2) :
      Derives 4 (tokens ++ negation negated ++ .mark .member :: enclosed (commas parts))
        (.inList e (parts.map (·.2)) negated)
  | isNull {tokens : List Token} {e : Expr} (negated : Bool) (first : Derives 4 tokens e) :
      Derives 4 (tokens ++ [.mark (if negated then .isNotNull else .isNull)]) (.isNull e negated)
  | minus {tokens : List Token} {e : Expr} (inner : Derives 7 tokens e) :
      Derives 7 (.mark .minus :: tokens) (.unary .minus e)
  | column (table : Option String) (name : String) :
      Derives 8 (qualified table (.name name)) (.column table name)
  | star (table : Option String) : Derives 8 (qualified table (.mark .star)) (.star table)
  | literal (value : Literal) : Derives 8 [value.token] (.literal value)
  | interval (count : Int) (unit : String) :
      Derives 8 [.mark .interval, .int count, .verbatim unit] (.interval count unit)
  | typed (type text : String) : Derives 8 [.verbatim type, .string text] (.typed type text)
  | parentheses {tokens : List Token} {e : Expr} (inner : Derives 1 tokens e) :
      Derives 8 (enclosed tokens) e
  | window {tokens : List Token} {call : Expr} {parts : List (List Token × Expr)}
      {orders : List (List Token × SortKey Expr)} (first : Derives 9 tokens call)
      (eachPart : ∀ part ∈ parts, Derives 1 part.1 part.2)
      (eachOrder : ∀ order ∈ orders, Derives 1 order.1 order.2.key) :
      Derives 8 (tokens ++ .mark .over :: enclosed
          (clause .partitionBy parts ++ clause .orderBy (orders.map sortKey)))
        (.window call (parts.map (·.2)) (orders.map (·.2)))
  | function (name : String) (distinct : Bool) {parts : List (List Token × Expr)}
      (each : ∀ part ∈ parts, Derives 1 part.1 part.2) :
      Derives 9 (.function name :: enclosed (quantifier distinct ++ commas parts))
        (.function name (parts.map (·.2)) distinct)

theorem Derives.mono {bound tight : Nat} {tokens : List Token} {e : Expr} (le : bound ≤ tight)
    (derives : Derives tight tokens e) : Derives bound tokens e := by
  induction le with
  | refl => exact derives
  | step _ ih => exact ih derives.looser

end Grammar

namespace Expr

open Grammar

/-- Whether a part can be written so that it is read back: a list has a value, and what is under a
window is a call. -/
def isReadable : Expr → Bool
  | .inList _ values _ => !values.isEmpty
  | .window (.function ..) _ _ => true
  | .window .. => false
  | _ => true

/-- Every part can be read back. -/
def WellFormed (e : Expr) : Prop :=
  ∀ node ∈ e.nodes, node.isReadable = true

instance : DecidablePred WellFormed := fun e =>
  inferInstanceAs (Decidable (∀ node ∈ e.nodes, node.isReadable = true))

section WellFormed

theorem wellFormed_binary {op : BinaryOp} {left right : Expr} :
    WellFormed (.binary op left right) ↔ WellFormed left ∧ WellFormed right :=
  forall_nodes_binary.trans (and_iff_right rfl)

theorem wellFormed_unary {op : UnaryOp} {operand : Expr} :
    WellFormed (.unary op operand) ↔ WellFormed operand :=
  forall_nodes_unary.trans (and_iff_right rfl)

theorem wellFormed_function {name : String} {args : List Expr} {distinct : Bool} :
    WellFormed (.function name args distinct) ↔ ∀ arg ∈ args, WellFormed arg :=
  forall_nodes_function.trans (and_iff_right rfl)

theorem wellFormed_inList {operand : Expr} {values : List Expr} {negated : Bool} :
    WellFormed (.inList operand values negated) ↔
      values ≠ [] ∧ WellFormed operand ∧ ∀ value ∈ values, WellFormed value := by
  have nonempty : (inList operand values negated).isReadable = true ↔ values ≠ [] := by
    cases values <;> simp [isReadable]
  exact forall_nodes_inList.trans (and_congr_left fun _ => nonempty)

theorem wellFormed_isNull {operand : Expr} {negated : Bool} :
    WellFormed (.isNull operand negated) ↔ WellFormed operand :=
  forall_nodes_isNull.trans (and_iff_right rfl)

theorem wellFormed_window {call : Expr} {partitionBy : List Expr}
    {orderBy : List (SortKey Expr)} (wellFormed : WellFormed (.window call partitionBy orderBy)) :
    (∃ name args distinct, call = .function name args distinct) ∧ WellFormed call ∧
      (∀ part ∈ partitionBy, WellFormed part) ∧ (∀ order ∈ orderBy, WellFormed order.key) := by
  obtain ⟨readable, parts⟩ := forall_nodes_window.mp wellFormed
  refine ⟨?_, parts⟩
  cases call with
  | function name args distinct => exact ⟨name, args, distinct, rfl⟩
  | _ => cases readable

end WellFormed

/-! ## What is written -/

def level : Expr → Nat
  | .binary op _ _ => Grammar.strength op
  | .unary .not _ => 3
  | .unary .minus _ => 7
  | .inList .. | .isNull .. => 4
  | .function .. => 9
  | _ => 8

def written (e : Expr) : List Token × Expr :=
  (visible e.tokens, e)

def writtenKey (order : SortKey Expr) : List Token × SortKey Expr :=
  (visible order.key.tokens, order)

theorem tokensEach_eq (es : List Expr) : tokensEach es = es.map tokens := by
  induction es with
  | nil => rfl
  | cons e rest ih => rw [tokensEach, ih, List.map_cons]

theorem tokensKeys_eq (orders : List (SortKey Expr)) :
    tokensKeys orders = orders.map SortKey.tokens := by
  induction orders with
  | nil => rfl
  | cons order rest ih =>
    rw [tokensKeys, ih, List.map_cons]
    rfl

theorem strength_eq (op : BinaryOp) : op.strength = Grammar.strength op := by
  cases op <;> rfl

theorem visible_spelling (op : BinaryOp) : visible op.tokens = spelling op := by
  cases op <;> rfl

theorem visible_parenthesized (tokens : List Token) :
    visible (parenthesized tokens) = enclosed (visible tokens) := by
  simp [parenthesized, enclosed]

theorem visible_commaSeparated {α : Type} (f : α → List Token) (values : List α) :
    visible (commaSeparated (values.map f)) =
      commas (values.map fun value => (visible (f value), value)) := by
  induction values with
  | nil => rfl
  | cons value rest ih =>
    cases rest with
    | nil => simp [commaSeparated, commas, Reader.listed]
    | cons next rest =>
      simp only [List.map_cons, commaSeparated, commas, Reader.listed_cons] at ih ⊢
      simp [ih]

theorem visible_direction (order : Option Direction) :
    visible (directionTokens order) = direction order := by
  cases order with
  | none => rfl
  | some direction => cases direction <;> rfl

theorem visible_tokensEach (es : List Expr) :
    visible (commaSeparated (tokensEach es)) = commas (es.map written) := by
  rw [tokensEach_eq]
  exact visible_commaSeparated tokens es

theorem visible_tokensKeys (orders : List (SortKey Expr)) :
    visible (commaSeparated (tokensKeys orders)) =
      commas ((orders.map writtenKey).map sortKey) := by
  rw [tokensKeys_eq, visible_commaSeparated, List.map_map]
  congr 2
  funext order
  simp [sortKey, writtenKey, SortKey.tokens, visible_direction]

theorem visible_overTokens (partitionBy : List Expr) (orderBy : List (SortKey Expr)) :
    visible (overTokens (tokensEach partitionBy) (tokensKeys orderBy)) =
      clause .partitionBy (partitionBy.map written) ++
        clause .orderBy ((orderBy.map writtenKey).map sortKey) := by
  have parts := visible_tokensEach partitionBy
  have orders := visible_tokensKeys orderBy
  cases partitionBy <;> cases orderBy <;>
    simp_all [overTokens, tokensEach, tokensKeys, clause, introduced]

theorem visible_qualified (table : Option String) {last : Token} (shown : last.isBlank = false) :
    visible (Sql.qualified table last) = Grammar.qualified table last := by
  have single : visible [last] = [last] := by simp [visible, shown]
  cases table with
  | none => exact single
  | some table => exact congrArg (fun rest => .name table :: .mark .dot :: rest) single

theorem one_le_strength (op : BinaryOp) : 1 ≤ Grammar.strength op := by
  cases op <;> decide

theorem strength_lt (op : BinaryOp) : Grammar.strength op < 7 := by
  cases op <;> decide

theorem one_le_level (e : Expr) : 1 ≤ e.level := by
  cases e with
  | binary op => exact one_le_strength op
  | unary op => cases op <;> exact Nat.le_add_left 1 _
  | _ => exact Nat.le_add_left 1 _

theorem strength?_eq {e : Expr} (wellFormed : WellFormed e) :
    e.strength? = if e.level < 7 then some e.level else none := by
  cases e with
  | binary op =>
    rw [strength?, strength_eq]
    cases op <;> rfl
  | unary op => cases op <;> rfl
  | inList operand values negated =>
    cases values with
    | nil => exact absurd rfl (wellFormed_inList.mp wellFormed).1
    | cons => rfl
  | _ => rfl

/-- An operand in its place: in parentheses it fits everywhere, and without them only where its
own operator is tight enough. -/
theorem derives_wrapped {e : Expr} {parens : Bool} {bound : Nat} (primary : bound ≤ 8)
    (derives : Derives e.level (visible e.tokens) e)
    (tight : parens = false → bound ≤ e.level) :
    Derives bound (visible (wrapped parens e.tokens)) e := by
  cases parens with
  | true =>
    rw [wrapped, if_pos rfl, visible_parenthesized]
    exact (Derives.parentheses (derives.mono (one_le_level e))).mono primary
  | false => exact derives.mono (tight rfl)

section Operands

variable {e : Expr} (wellFormed : WellFormed e) (derives : Derives e.level (visible e.tokens) e)
include wellFormed derives

theorem derives_looserThan {bound : Nat} (operator : bound ≤ 7) :
    Derives bound (visible (wrapped (e.looserThan bound) e.tokens)) e := by
  refine derives_wrapped (by omega) derives fun tight => ?_
  rw [looserThan, strength?_eq wellFormed] at tight
  split at tight
  · simpa using tight
  · omega

theorem derives_atMost {bound : Nat} (operator : bound < 7) :
    Derives (bound + 1) (visible (wrapped (e.atMost bound) e.tokens)) e := by
  refine derives_wrapped (by omega) derives fun tight => ?_
  rw [atMost, strength?_eq wellFormed] at tight
  split at tight
  · exact Nat.lt_of_not_le (by simpa using tight)
  · omega

theorem derives_isSome :
    Derives 7 (visible (wrapped e.strength?.isSome e.tokens)) e := by
  refine derives_wrapped (by omega) derives fun tight => ?_
  rw [strength?_eq wellFormed] at tight
  split at tight
  · cases tight
  · omega

end Operands

theorem each_written {es : List Expr} (wellFormed : ∀ e ∈ es, WellFormed e)
    (each : ∀ e ∈ es, WellFormed e → Derives e.level (visible e.tokens) e) :
    ∀ part ∈ es.map written, Derives 1 part.1 part.2 := by
  intro part member
  obtain ⟨e, within, rfl⟩ := List.mem_map.mp member
  exact (each e within (wellFormed e within)).mono (one_le_level e)

theorem each_writtenKey {orders : List (SortKey Expr)}
    (wellFormed : ∀ order ∈ orders, WellFormed order.key)
    (each : ∀ order ∈ orders, WellFormed order.key →
      Derives order.key.level (visible order.key.tokens) order.key) :
    ∀ part ∈ orders.map writtenKey, Derives 1 part.1 part.2.key := by
  intro part member
  obtain ⟨order, within, rfl⟩ := List.mem_map.mp member
  exact (each order within (wellFormed order within)).mono (one_le_level order.key)

theorem map_writtenKey (orders : List (SortKey Expr)) :
    (orders.map writtenKey).map (·.2) = orders := by
  rw [List.map_map]
  exact List.map_id orders

theorem map_written (es : List Expr) : (es.map written).map (·.2) = es := by
  rw [List.map_map]
  exact List.map_id es

/-- The tokens of an expression derive it at its own strength. -/
theorem derives_level (e : Expr) (wellFormed : WellFormed e) :
    Derives e.level (visible e.tokens) e := by
  induction e with
  | column table name =>
    rw [tokens, visible_qualified table rfl]
    exact .column table name
  | star table =>
    rw [tokens, visible_qualified table rfl]
    exact .star table
  | literal value => cases value <;> exact .literal _
  | interval count unit => exact .interval count unit
  | typed type text => exact .typed type text
  | binary op left right ihl ihr =>
    obtain ⟨first, second⟩ := wellFormed_binary.mp wellFormed
    have left := derives_looserThan first (ihl first) (Nat.le_of_lt (strength_lt op))
    have right := derives_atMost second (ihr second) (strength_lt op)
    simp only [tokens, strength_eq, visible_append, visible_space, visible_spelling]
    exact left.binary right
  | unary op operand ih =>
    have inner := wellFormed_unary.mp wellFormed
    have operand := derives_isSome inner (ih inner)
    cases op with
    | not => exact .not (operand.mono (by decide))
    | minus => exact .minus operand
  | function name args distinct ih =>
    have call :=
      Derives.function name distinct (each_written (wellFormed_function.mp wellFormed) ih)
    rw [map_written, ← visible_tokensEach] at call
    cases distinct <;> simpa [level, tokens, visible_parenthesized, quantifier] using call
  | inList operand values negated ih ihs =>
    obtain ⟨nonempty, inner, each⟩ := wellFormed_inList.mp wellFormed
    have operand := derives_atMost inner (ih inner) (show comparisonStrength < 7 by decide)
    have list := (operand.mono (show 4 ≤ 5 by decide)).inList negated
      (by simpa using nonempty) (each_written each ihs)
    rw [map_written, ← visible_tokensEach] at list
    cases values with
    | nil => exact absurd rfl nonempty
    | cons value values =>
      cases negated <;>
        simpa [level, tokens, tokensEach, visible_parenthesized, negation] using list
  | isNull operand negated ih =>
    have inner := wellFormed_isNull.mp wellFormed
    have operand := derives_atMost inner (ih inner) (show comparisonStrength < 7 by decide)
    simp only [tokens, visible_append, visible_space, visible_mark, visible_nil]
    exact (operand.mono (show 4 ≤ 5 by decide)).isNull negated
  | window call partitionBy orderBy ih ihp iho =>
    obtain ⟨⟨name, args, distinct, rfl⟩, inner, parts, orders⟩ := wellFormed_window wellFormed
    have window := (ih inner).window (each_written parts ihp) (each_writtenKey orders iho)
    rw [map_written, map_writtenKey, ← visible_overTokens, ← visible_parenthesized] at window
    simpa [level, tokens] using window

end Expr

end Rollup.Sql
