import Rollup.Proofs.Sql.Comment
import Rollup.Proofs.Sql.Grammar
import Rollup.Proofs.Sql.Word
import Rollup.Sql.Query

/-! Where the text of a statement opens a comment.

A sign has no space behind it and puts only operators in parentheses. So two minus signs meet where
a sign stands in front of another one or of a negative number, and there the rest of the line is
read as a comment. Everything else that a statement is written with is kept apart.
-/

set_option autoImplicit false

namespace Rollup.Sql

def Vocabulary.words : Vocabulary := ⟨(isWord · = true), (isWord · = true)⟩

namespace Expr

/-- Whether an expression begins with a minus: it is one with a sign, or a negative number. -/
def isNegative : Expr → Bool
  | .unary .minus _ => true
  | .literal (.int n) => n < 0
  | .literal (.float (.finite negative _)) => negative
  | _ => false

mutual

/-- Whether a sign stands right in front of another minus. Nothing is written of what is tested
against an empty list. -/
def doublesMinus : Expr → Bool
  | .column .. | .literal _ | .star _ | .interval .. | .typed .. => false
  | .binary _ left right => doublesMinus left || doublesMinus right
  | .unary .minus operand => operand.isNegative || doublesMinus operand
  | .unary .not operand => doublesMinus operand
  | .function _ args _ => doublesMinusEach args
  | .inList _ [] _ => false
  | .inList operand (value :: values) _ =>
    doublesMinus operand || (doublesMinus value || doublesMinusEach values)
  | .isNull operand _ => doublesMinus operand
  | .window call partitionBy orderBy =>
    doublesMinus call || doublesMinusEach partitionBy || doublesMinusKeys orderBy

def doublesMinusEach : List Expr → Bool
  | [] => false
  | e :: rest => doublesMinus e || doublesMinusEach rest

def doublesMinusKeys : List (SortKey Expr) → Bool
  | [] => false
  | ⟨e, _⟩ :: rest => doublesMinus e || doublesMinusKeys rest

end

abbrev Wordy (e : Expr) : Prop := e.KeepsTo .words

theorem doublesMinusEach_eq (es : List Expr) : doublesMinusEach es = es.any doublesMinus := by
  induction es with
  | nil => rfl
  | cons e rest ih => rw [doublesMinusEach, ih, List.any_cons]

theorem doublesMinusKeys_eq (orders : List (SortKey Expr)) :
    doublesMinusKeys orders = orders.any (·.key.doublesMinus) := by
  induction orders with
  | nil => rfl
  | cons order rest ih => rw [doublesMinusKeys, ih, List.any_cons]

end Expr

/-! ## Sequences of tokens -/

/-- Tokens that are read as they are, and whether a comment opens in them; if not, they end where
nothing can clash. -/
structure Opens (d : Dialect) (opening : Bool) (tokens : List Token) : Prop where
  tame : ∀ token ∈ tokens, token.Tame d
  through : Place.plain.through tokens = if opening then none else some .plain

namespace Opens
variable {d : Dialect} {a b : Bool} {first second : List Token}

theorem congr (opens : Opens d a first) (same : a = b) : Opens d b first := same ▸ opens

theorem nil : Opens d false [] := ⟨fun _ member => absurd member List.not_mem_nil, rfl⟩

-- Behind nothing, or behind what ends plainly, no token clashes.
theorem cons {token : Token} (tame : token.Tame d) (plain : token.place = .plain)
    (rest : Opens d b first) : Opens d b (token :: first) where
  tame := List.forall_mem_cons.mpr ⟨tame, rest.tame⟩
  through := by
    have next : Token.next? .plain token = some token.place := rfl
    rw [Place.through_cons, next, plain]
    exact rest.through

theorem mark {m : Mark} (plain : (Token.mark m).place = .plain) (rest : Opens d b first) :
    Opens d b (.mark m :: first) :=
  rest.cons (Token.tame_mark m) plain

theorem space (rest : Opens d b first) : Opens d b (.space :: first) :=
  rest.cons Token.tame_space rfl

theorem append (left : Opens d a first) (right : Opens d b second) :
    Opens d (a || b) (first ++ second) where
  tame := List.forall_mem_append.mpr ⟨left.tame, right.tame⟩
  through := by
    rw [Place.through_append, left.through]
    cases a
    · exact right.through
    · rfl

theorem parenthesized (within : Opens d a first) : Opens d a (parenthesized first) :=
  mark rfl ((within.append (mark rfl nil)).congr (Bool.or_false a))

theorem wrapped (parens : Bool) (within : Opens d a first) :
    Opens d a (Expr.wrapped parens first) := by
  cases parens
  · exact within
  · exact within.parenthesized

theorem introduced {keyword : Mark} (plain : (Token.mark keyword).place = .plain)
    (within : Opens d a first) : Opens d a (introduced keyword first) :=
  mark plain within.space

theorem commaSeparated {α : Type} {bad : α → Bool} {write : α → List Token} {items : List α}
    (each : ∀ item ∈ items, Opens d (bad item) (write item)) :
    Opens d (items.any bad) (commaSeparated (items.map write)) := by
  induction items with
  | nil => exact nil
  | cons item rest ih =>
    obtain ⟨head, tail⟩ := List.forall_mem_cons.mp each
    cases rest with
    | nil => exact head.congr (by simp)
    | cons next rest => exact ((head.append (mark rfl nil.space)).append (ih tail)).congr (by simp)

end Opens

/-! ## Expressions -/

namespace Expr
variable {d : Dialect}

theorem opens_qualified (tame : d.Tame) (table : Option String) {last : Token}
    (closed : last.Tame d) (plain : last.place = .plain) :
    Opens d false (qualified table last) := by
  cases table with
  | none => exact .cons closed plain .nil
  | some table => exact .cons (Token.tame_name tame table) rfl (.mark rfl (.cons closed plain .nil))

theorem opens_direction (direction : Option Direction) :
    Opens d false (directionTokens direction) := by
  rcases direction with _ | _ | _
  · exact .nil
  · exact .space (.mark rfl .nil)
  · exact .space (.mark rfl .nil)

theorem opens_sortKey (order : SortKey Expr)
    (opens : Opens d order.key.doublesMinus order.key.tokens) :
    Opens d order.key.doublesMinus order.tokens :=
  (opens.append (opens_direction order.direction)).congr (Bool.or_false _)

theorem opens_overTokens {a b : Bool} {partitionBy orderBy : List (List Token)}
    (parts : Opens d a (commaSeparated partitionBy))
    (orders : Opens d b (commaSeparated orderBy)) :
    Opens d (a || b) (overTokens partitionBy orderBy) := by
  -- A clause without parts is not written, and opens nothing.
  have none : ∀ {opening : Bool}, Opens d opening [] → opening = false := by
    intro opening empty
    cases opening
    · rfl
    · cases empty.through
  cases partitionBy with
  | nil =>
    obtain rfl := none parts
    cases orderBy with
    | nil => exact orders
    | cons => exact Opens.introduced rfl orders
  | cons =>
    cases orderBy with
    | nil =>
      obtain rfl := none orders
      exact (Opens.introduced rfl parts).append .nil
    | cons => exact (Opens.introduced rfl parts).append (.space (.introduced rfl orders))

theorem opens_operator (op : BinaryOp) : Opens d false (.space :: op.tokens ++ [.space]) := by
  refine ⟨?_, by cases op <;> rfl⟩
  cases op <;> simp [BinaryOp.tokens, Token.tame_mark, Token.tame_space]

theorem tokens_of_atom {e : Expr} (atom : e.strength? = none) (wordy : e.Wordy) :
    ∃ first rest, e.tokens = first :: rest ∧ first.isSigned = e.isNegative := by
  cases e with
  | column table name => cases table <;> exact ⟨_, _, rfl, rfl⟩
  | literal value =>
    refine ⟨_, _, rfl, ?_⟩
    cases value with
    | float x => cases x <;> rfl
    | _ => rfl
  | binary op left right => cases atom
  | unary op operand =>
    cases op with
    | not => cases atom
    | minus => exact ⟨_, _, rfl, rfl⟩
  | function name args distinct => exact ⟨_, _, rfl, rfl⟩
  | inList operand values negated =>
    cases values with
    | nil => exact ⟨_, _, rfl, rfl⟩
    | cons => cases atom
  | isNull operand negated => cases atom
  | star table => cases table <;> exact ⟨_, _, rfl, rfl⟩
  | window call partitionBy orderBy =>
    obtain ⟨name, args, distinct, rfl⟩ := KeepsTo.call wordy
    exact ⟨_, _, rfl, rfl⟩
  | interval count unit => exact ⟨_, _, rfl, rfl⟩
  | typed type text => exact ⟨_, _, rfl, rfl⟩

theorem isNegative_of_operator {e : Expr} {strength : Nat}
    (operator : e.strength? = some strength) : e.isNegative = false := by
  cases e with
  | literal value => cases operator
  | unary op operand => cases op <;> first | rfl | cases operator
  | _ => rfl

/-- Behind a sign an operand is read as elsewhere, unless it is negative. -/
theorem opens_negated {operand : Expr} (wordy : operand.Wordy)
    (opens : Opens d operand.doublesMinus operand.tokens) :
    Opens d (operand.isNegative || operand.doublesMinus)
      (.mark .minus :: wrapped operand.strength?.isSome operand.tokens) := by
  have behind : ∀ tokens, Place.plain.through (.mark .minus :: tokens) =
      Place.minus.through tokens := fun _ => rfl
  refine ⟨List.forall_mem_cons.mpr ⟨Token.tame_mark _, (opens.wrapped _).tame⟩, ?_⟩
  rw [behind]
  cases operator : operand.strength? with
  | some strength =>
    rw [isNegative_of_operator operator, Bool.false_or]
    exact opens.parenthesized.through
  | none =>
    obtain ⟨first, rest, tokens, signed⟩ := tokens_of_atom operator wordy
    have through := opens.through
    rw [tokens] at through
    show Place.minus.through operand.tokens = _
    rw [tokens, ← signed]
    cases negative : first.isSigned with
    | true => simp [Place.through_cons, Token.next?, Token.clashes, negative]
    | false =>
      rw [Bool.false_or, ← through, Place.through_cons, Place.through_cons]
      simp [Token.next?, Token.clashes, negative]

/-- An expression opens a comment just where it doubles a minus. -/
theorem opens_tokens (tame : d.Tame) (e : Expr) (wordy : e.Wordy) :
    Opens d e.doublesMinus e.tokens := by
  induction e with
  | column table name => exact opens_qualified tame table (Token.tame_name tame name) rfl
  | literal value =>
    cases value with
    | int n => exact .cons (Token.tame_int n) rfl .nil
    | float x => exact .cons (Token.tame_float tame x) rfl .nil
    | string text => exact .cons (Token.tame_string tame text) rfl .nil
    | bool value => exact .cons (Token.tame_bool tame value) rfl .nil
    | null => exact .cons (Token.tame_null tame) rfl .nil
  | binary op left right ihl ihr =>
    obtain ⟨l, r⟩ := keepsTo_binary.mp wordy
    have written := (((ihl l).wrapped (left.looserThan op.strength)).append
      (opens_operator op)).append ((ihr r).wrapped (right.atMost op.strength))
    rw [Bool.or_false] at written
    simpa [tokens, doublesMinus] using written
  | unary op operand ih =>
    have inner := keepsTo_unary.mp wordy
    cases op with
    | minus => exact opens_negated inner (ih inner)
    | not => exact .mark rfl (.space ((ih inner).wrapped _))
  | function name args distinct ihs =>
    obtain ⟨word, each⟩ := keepsTo_function.mp wordy
    have list := Opens.commaSeparated fun arg member => ihs arg member (each arg member)
    rw [doublesMinus, doublesMinusEach_eq, tokens, tokensEach_eq]
    refine .cons (Token.tame_function tame word) rfl (Opens.parenthesized ?_)
    cases distinct
    · exact list
    · exact .mark rfl (.space list)
  | inList operand values negated ih ihs =>
    cases values with
    | nil => exact .cons (Token.tame_bool tame negated) rfl .nil
    | cons value rest =>
      obtain ⟨inner, each⟩ := keepsTo_inList.mp wordy
      have list := Opens.commaSeparated fun value member => ihs value member (each value member)
      have member : Opens d false ((if negated then [.space, .mark .not] else []) ++
          [.space, .mark .member, .space]) := by
        cases negated
        · exact .space (.mark rfl (.space .nil))
        · exact .space (.mark rfl (.space (.mark rfl (.space .nil))))
      have written := (((ih inner).wrapped (operand.atMost comparisonStrength)).append
        member).append list.parenthesized
      rw [Bool.or_false] at written
      simpa [tokens, doublesMinus, tokensEach_eq, doublesMinusEach_eq] using written
  | isNull operand negated ih =>
    have inner := keepsTo_isNull.mp wordy
    have test : Opens d false [.space, .mark (if negated then .isNotNull else .isNull)] := by
      cases negated <;> exact .space (.mark rfl .nil)
    exact (((ih inner).wrapped _).append test).congr (Bool.or_false _)
  | star table => exact opens_qualified tame table (Token.tame_mark _) rfl
  | window call partitionBy orderBy ih ihp iho =>
    obtain ⟨name, args, distinct, rfl⟩ := KeepsTo.call wordy
    obtain ⟨inner, parts, keys⟩ := keepsTo_window.mp wordy
    have listed := Opens.commaSeparated fun part member => ihp part member (parts part member)
    have ordered := Opens.commaSeparated fun order member =>
      opens_sortKey order (iho order member (keys order member))
    have between : Opens d false [.space, .mark .over, .space] :=
      .space (.mark rfl (.space .nil))
    have rows := (opens_overTokens listed ordered).parenthesized
    have written := ((ih inner).append between).append rows
    rw [Bool.or_false] at written
    simpa [tokens, doublesMinus, tokensEach_eq, tokensKeys_eq, doublesMinusEach_eq,
      doublesMinusKeys_eq, Bool.or_assoc] using written
  | interval count unit =>
    have word : isWord unit = true := keepsTo_interval.mp wordy
    exact .introduced rfl (.cons (Token.tame_int count) rfl
      (.space (.cons (Token.tame_verbatim word) rfl .nil)))
  | typed type text =>
    have word : isWord type = true := keepsTo_typed.mp wordy
    exact .cons (Token.tame_verbatim word) rfl
      (.space (.cons (Token.tame_string tame text) rfl .nil))

end Expr

/-! ## Statements -/

def Select.exprs (body : Select) : List Expr :=
  body.items.map (·.expr) ++ body.filter.toList ++ body.groupBy ++ body.having.toList ++
    body.orderBy.map (·.key)

def Query.exprs : Query → List Expr
  | .bare body => body.exprs
  | .ofTable body _ _ => body.exprs
  | .ofQuery body source _ => body.exprs ++ source.exprs

theorem forall_exprs {P : Expr → Prop} {body : Select} : (∀ e ∈ body.exprs, P e) ↔
    (∀ item ∈ body.items, P item.expr) ∧ (∀ e ∈ body.filter.toList, P e) ∧
      (∀ e ∈ body.groupBy, P e) ∧ (∀ e ∈ body.having.toList, P e) ∧
      ∀ order ∈ body.orderBy, P order.key := by
  simp only [Select.exprs, List.forall_mem_append, List.forall_mem_map, and_assoc]

theorem any_exprs (p : Expr → Bool) (body : Select) : body.exprs.any p =
    (body.items.any (p ·.expr) || (body.filter.toList.any p || body.groupBy.any p ||
      body.having.toList.any p || body.orderBy.any (p ·.key))) := by
  simp [Select.exprs, List.any_append, List.any_map, Function.comp_def, Bool.or_assoc]

section Statements
variable {d : Dialect} (tame : d.Tame)

theorem opens_lineBreak (depth : Nat) : Opens d false (lineBreak depth) := by
  unfold lineBreak
  split
  · exact .cons Token.tame_newline rfl .nil
  · rename_i deep
    exact .cons Token.tame_newline rfl (.cons (Token.tame_indent deep) rfl .nil)

theorem opens_clause {keyword : Mark} {opening : Bool} {body : List Token} (depth : Nat)
    (plain : (Token.mark keyword).place = .plain) (opens : Opens d opening body) :
    Opens d opening (clause depth keyword body) :=
  (opens_lineBreak depth).append (.introduced plain opens)

theorem opens_rowTokens (depth : Nat) (rows : RowWindow) :
    Opens d false (Select.rowTokens depth rows) := by
  have count : ∀ n, Opens d false [countToken n] := fun n => .cons (Token.tame_int _) rfl .nil
  have limit : Opens d false rows.limitTokens := by
    unfold RowWindow.limitTokens
    split
    · exact .nil
    · exact .introduced rfl (count _)
  have offset : Opens d false rows.offsetTokens := by
    unfold RowWindow.offsetTokens
    split
    · exact .nil
    · exact .nil
    · exact .introduced rfl (count _)
  have rows : Opens d false rows.tokens := by
    unfold RowWindow.tokens
    dsimp only
    split
    · exact limit.append offset
    · exact limit.append (.space offset)
  unfold Select.rowTokens
  split
  · exact .nil
  · exact (opens_lineBreak depth).append rows

include tame

theorem opens_aliasTokens (name : String) : Opens d false (aliasTokens name) :=
  .space (.introduced rfl (.cons (Token.tame_name tame name) rfl .nil))

theorem opens_optionalAlias (label : Option String) : Opens d false (optionalAlias label) := by
  cases label with
  | none => exact .nil
  | some name => exact opens_aliasTokens tame name

theorem opens_itemTokens (depth : Nat) {items : List SelectItem}
    (wordy : ∀ item ∈ items, item.expr.Wordy) :
    Opens d (items.any (·.expr.doublesMinus)) (Select.itemTokens depth items) := by
  have single : ∀ item ∈ items, Opens d item.expr.doublesMinus
      (lineBreak (depth + 1) ++ item.tokens) := by
    intro item member
    refine (opens_lineBreak _).append (((Expr.opens_tokens tame _ (wordy item member)).append
      (opens_optionalAlias tame item.label)).congr (Bool.or_false _))
  induction items with
  | nil => exact .nil
  | cons item rest ih =>
    obtain ⟨head, tail⟩ := List.forall_mem_cons.mp single
    cases rest with
    | nil => exact head.congr (by simp)
    | cons next rest =>
      exact head.append (.mark rfl (ih (fun item member =>
        wordy item (List.mem_cons_of_mem _ member)) tail))

theorem opens_conditionClause {keyword : Mark} (depth : Nat)
    (plain : (Token.mark keyword).place = .plain) {condition : Option Expr}
    (wordy : ∀ e ∈ condition.toList, e.Wordy) :
    Opens d (condition.toList.any (·.doublesMinus)) (conditionClause depth keyword condition) := by
  cases condition with
  | none => exact .nil
  | some e =>
    have opens := Expr.opens_tokens tame e (wordy e (by simp))
    exact (opens_clause depth plain opens).congr (by simp)

omit tame in
theorem opens_listClause {α : Type} {bad : α → Bool} {write : α → List Token} {items : List α}
    {keyword : Mark} (depth : Nat) (plain : (Token.mark keyword).place = .plain)
    (each : ∀ item ∈ items, Opens d (bad item) (write item)) :
    Opens d (items.any bad) (listClause depth keyword (items.map write)) := by
  cases items with
  | nil => exact .nil
  | cons => exact opens_clause depth plain (Opens.commaSeparated each)

theorem opens_headTokens (depth : Nat) {body : Select} (wordy : ∀ e ∈ body.exprs, e.Wordy) :
    Opens d (body.items.any (·.expr.doublesMinus)) (body.headTokens depth) :=
  .mark rfl (opens_itemTokens tame depth (forall_exprs.mp wordy).1)

theorem opens_tailTokens (depth : Nat) {body : Select} (wordy : ∀ e ∈ body.exprs, e.Wordy) :
    Opens d (body.filter.toList.any (·.doublesMinus) || body.groupBy.any (·.doublesMinus) ||
      body.having.toList.any (·.doublesMinus) || body.orderBy.any (·.key.doublesMinus))
      (body.tailTokens depth) := by
  obtain ⟨-, filter, groupBy, having_, orderBy⟩ := forall_exprs.mp wordy
  have groups : Opens d _ (listClause depth .groupBy (body.groupBy.map Expr.tokens)) :=
    opens_listClause depth rfl fun e member => Expr.opens_tokens tame e (groupBy e member)
  have orders : Opens d _ (listClause depth .orderBy (body.orderBy.map SortKey.tokens)) :=
    opens_listClause depth rfl fun order member =>
      Expr.opens_sortKey order (Expr.opens_tokens tame order.key (orderBy order member))
  exact (((((opens_conditionClause tame depth rfl filter).append groups).append
    (opens_conditionClause tame depth rfl having_)).append orders).append
    (opens_rowTokens depth body.rows)).congr (Bool.or_false _)

theorem opens_tokensAt (query : Query) (wordy : ∀ e ∈ query.exprs, e.Wordy) (depth : Nat) :
    Opens d (query.exprs.any (·.doublesMinus)) (query.tokensAt depth) := by
  induction query generalizing depth with
  | bare body =>
    exact ((opens_headTokens tame depth wordy).append (opens_tailTokens tame depth wordy)).congr
      (any_exprs (·.doublesMinus) body).symm
  | ofTable body table label =>
    have source : Opens d false (clause depth .source (.name table :: optionalAlias label)) :=
      opens_clause depth rfl (.cons (Token.tame_name tame table) rfl
        (opens_optionalAlias tame label))
    refine (((opens_headTokens tame depth wordy).append source).append
      (opens_tailTokens tame depth wordy)).congr ?_
    rw [Bool.or_false]
    exact (any_exprs (·.doublesMinus) body).symm
  | ofQuery body query label ih =>
    obtain ⟨outer, inner⟩ := List.forall_mem_append.mp wordy
    have source : Opens d (query.exprs.any (·.doublesMinus)) (clause depth .source
        (parenthesized (lineBreak (depth + 1) ++ query.tokensAt (depth + 1) ++ lineBreak depth) ++
          aliasTokens label)) := by
      refine opens_clause depth rfl (((Opens.parenthesized ?_).append
        (opens_aliasTokens tame label)).congr (Bool.or_false _))
      exact (((opens_lineBreak _).append (ih inner _)).append (opens_lineBreak _)).congr (by simp)
    refine (((opens_headTokens tame depth outer).append source).append
      (opens_tailTokens tame depth outer)).congr ?_
    rw [Query.exprs, List.any_append, any_exprs]
    simp only [Bool.or_assoc, Bool.or_comm, Bool.or_left_comm]

/-- The text of a statement opens a comment just where an expression in it doubles a minus. -/
theorem opensComment_query (query : Query) (wordy : ∀ e ∈ query.exprs, e.Wordy) :
    opensComment (query.pretty d) = query.exprs.any (·.doublesMinus) ∧
      opensComment (query.compact d) = query.exprs.any (·.doublesMinus) := by
  have opens := opens_tokensAt tame query wordy 0
  have result : (Place.plain.through (query.tokensAt 0)).isNone =
      query.exprs.any (·.doublesMinus) := by
    rw [opens.through]
    cases query.exprs.any (·.doublesMinus) <;> rfl
  exact ⟨(Place.opensComment_spell opens.tame).trans result,
    (Place.opensComment_spellCompact opens.tame).trans result⟩

end Statements

end Rollup.Sql
