import Rollup.Proofs.Sql.Minus

/-! What statements spell outside of quotes.

Names and strings are spelled between quotes, and keywords, signs and blanks have one spelling each.
So only the words of expressions are spelled as they are, and a statement that keeps to a vocabulary
spells nothing else: its own functions and units, and the native names of those that the database
knows under another name.
-/

set_option autoImplicit false

namespace Rollup.Sql

variable {v : Vocabulary} {body : List Token}

/-! ## Tokens -/

namespace Token

/-- Whether a token is no word, or one of a vocabulary. -/
def IsIn (v : Vocabulary) : Token → Prop
  | .function called => v.function called
  | .verbatim word => v.word word
  | _ => True

def AllIn (v : Vocabulary) (tokens : List Token) : Prop := ∀ token ∈ tokens, token.IsIn v

theorem AllIn.append {others : List Token} (first : AllIn v body) (second : AllIn v others) :
    AllIn v (body ++ others) :=
  List.forall_mem_append.mpr ⟨first, second⟩

theorem AllIn.cons {token : Token} (first : token.IsIn v) (rest : AllIn v body) :
    AllIn v (token :: body) :=
  List.forall_mem_cons.mpr ⟨first, rest⟩

theorem allIn_nil : AllIn v [] := fun _ member => absurd member List.not_mem_nil

theorem allIn_single {token : Token} (first : token.IsIn v) : AllIn v [token] :=
  .cons first allIn_nil

theorem AllIn.introduced {keyword : Mark} (inside : AllIn v body) :
    AllIn v (introduced keyword body) :=
  .cons trivial (.cons trivial inside)

theorem AllIn.parenthesized (inside : AllIn v body) : AllIn v (parenthesized body) :=
  .cons trivial (inside.append (allIn_single trivial))

theorem AllIn.wrapped (parens : Bool) (inside : AllIn v body) :
    AllIn v (Expr.wrapped parens body) := by
  unfold Expr.wrapped
  split
  · exact inside.parenthesized
  · exact inside

/-- Two clauses of which either may be absent. -/
theorem AllIn.spaced {others : List Token} (first : AllIn v body) (second : AllIn v others) :
    AllIn v
      (if body.isEmpty || others.isEmpty then body ++ others else body ++ .space :: others) := by
  split
  · exact first.append second
  · exact first.append (.cons trivial second)

theorem allIn_commaSeparated {parts : List (List Token)} (each : ∀ part ∈ parts, AllIn v part) :
    AllIn v (commaSeparated parts) := by
  induction parts with
  | nil => exact allIn_nil
  | cons part rest ih =>
    obtain ⟨first, others⟩ := List.forall_mem_cons.mp each
    cases rest with
    | nil => exact first
    | cons next rest =>
      have comma : AllIn v [.mark .comma, .space] := .cons trivial (allIn_single trivial)
      exact (first.append comma).append (ih others)

theorem allIn_qualified {table : Option String} {last : Token} (is : last.IsIn v) :
    AllIn v (qualified table last) := by
  cases table with
  | none => exact allIn_single is
  | some table => exact .cons trivial (.cons trivial (allIn_single is))

theorem allIn_directionTokens (direction : Option Direction) :
    AllIn v (directionTokens direction) := by
  cases direction with
  | none => exact allIn_nil
  | some direction => exact .cons trivial (allIn_single trivial)

end Token

open Token (AllIn allIn_nil allIn_single)

/-! ## Expressions -/

namespace Expr

theorem allIn_op (op : BinaryOp) : AllIn v op.tokens := by
  cases op
  case notLike => exact .cons trivial (.cons trivial (allIn_single trivial))
  all_goals exact allIn_single trivial

theorem allIn_tokensEach {es : List Expr} (each : ∀ e ∈ es, AllIn v e.tokens) :
    ∀ part ∈ tokensEach es, AllIn v part := by
  induction es with
  | nil => exact fun part member => absurd member List.not_mem_nil
  | cons e rest ih =>
    obtain ⟨first, others⟩ := List.forall_mem_cons.mp each
    exact List.forall_mem_cons.mpr ⟨first, ih others⟩

theorem allIn_tokensKeys {orders : List (SortKey Expr)}
    (each : ∀ order ∈ orders, AllIn v order.key.tokens) :
    ∀ part ∈ tokensKeys orders, AllIn v part := by
  induction orders with
  | nil => exact fun part member => absurd member List.not_mem_nil
  | cons order rest ih =>
    obtain ⟨first, others⟩ := List.forall_mem_cons.mp each
    exact List.forall_mem_cons.mpr
      ⟨first.append (Token.allIn_directionTokens _), ih others⟩

theorem allIn_overTokens {partitionBy orderBy : List (List Token)}
    (parts : ∀ part ∈ partitionBy, AllIn v part) (orders : ∀ order ∈ orderBy, AllIn v order) :
    AllIn v (overTokens partitionBy orderBy) := by
  have clause : ∀ (keyword : Mark) {items : List (List Token)}, (∀ item ∈ items, AllIn v item) →
      AllIn v (if items.isEmpty then [] else introduced keyword (commaSeparated items)) := by
    intro keyword items each
    split
    · exact allIn_nil
    · exact (Token.allIn_commaSeparated each).introduced
  exact (clause .partitionBy parts).spaced (clause .orderBy orders)

theorem KeepsTo.tokens {e : Expr} (keeps : e.KeepsTo v) : AllIn v e.tokens := by
  induction e with
  | column table name => exact Token.allIn_qualified trivial
  | literal value => cases value <;> exact allIn_single trivial
  | binary op left right ihl ihr =>
    obtain ⟨l, r⟩ := keepsTo_binary.mp keeps
    have sign : AllIn v (.space :: op.tokens) := .cons trivial (allIn_op op)
    exact (((ihl l).wrapped _).append sign).append (.cons trivial ((ihr r).wrapped _))
  | unary op operand ih =>
    have sign : AllIn v op.tokens := by
      cases op with
      | not => exact .cons trivial (allIn_single trivial)
      | minus => exact allIn_single trivial
    exact sign.append ((ih (keepsTo_unary.mp keeps)).wrapped _)
  | function name args distinct ihs =>
    obtain ⟨known, each⟩ := keepsTo_function.mp keeps
    have inside : AllIn v (if distinct then [.mark .distinct, .space] else []) := by
      split
      · exact .cons trivial (allIn_single trivial)
      · exact allIn_nil
    have listed := allIn_tokensEach fun arg member => ihs arg member (each arg member)
    exact .cons known (inside.append (Token.allIn_commaSeparated listed)).parenthesized
  | inList operand values negated ih ihs =>
    obtain ⟨tested, each⟩ := keepsTo_inList.mp keeps
    cases values with
    | nil => exact allIn_single trivial
    | cons value values =>
      have negation : AllIn v (if negated then [.space, .mark .not] else []) := by
        split
        · exact .cons trivial (allIn_single trivial)
        · exact allIn_nil
      have listed : ∀ part ∈ tokensEach (value :: values), AllIn v part :=
        allIn_tokensEach fun item member => ihs item member (each item member)
      have member : AllIn v [.space, .mark .member, .space] :=
        .cons trivial (.cons trivial (allIn_single trivial))
      exact ((((ih tested).wrapped _).append negation).append member).append
        (Token.allIn_commaSeparated listed).parenthesized
  | isNull operand negated ih =>
    exact ((ih (keepsTo_isNull.mp keeps)).wrapped _).append
      (.cons trivial (allIn_single trivial))
  | star table => exact Token.allIn_qualified trivial
  | window call partitionBy orderBy ih ihs ihk =>
    obtain ⟨name, args, distinct, rfl⟩ := KeepsTo.call keeps
    obtain ⟨called, parts, keys⟩ := keepsTo_window.mp keeps
    have keyword : AllIn v [.space, .mark .over, .space] :=
      .cons trivial (.cons trivial (allIn_single trivial))
    have clauses := allIn_overTokens
      (allIn_tokensEach fun part member => ihs part member (parts part member))
      (allIn_tokensKeys fun order member => ihk order member (keys order member))
    exact ((ih called).append keyword).append clauses.parenthesized
  | interval count unit =>
    exact Token.AllIn.introduced
      (.cons trivial (.cons trivial (allIn_single (keepsTo_interval.mp keeps))))
  | typed type text =>
    exact .cons (keepsTo_typed.mp keeps) (.cons trivial (allIn_single trivial))

end Expr

/-! ## Statements -/

theorem allIn_lineBreak (depth : Nat) : AllIn v (lineBreak depth) := by
  unfold lineBreak
  split
  · exact allIn_single trivial
  · exact .cons trivial (allIn_single trivial)

theorem allIn_clause (depth : Nat) {keyword : Mark} (inside : AllIn v body) :
    AllIn v (clause depth keyword body) :=
  (allIn_lineBreak depth).append inside.introduced

theorem allIn_listClause (depth : Nat) {keyword : Mark} {parts : List (List Token)}
    (each : ∀ part ∈ parts, AllIn v part) : AllIn v (listClause depth keyword parts) := by
  unfold listClause
  split
  · exact allIn_nil
  · exact allIn_clause depth (Token.allIn_commaSeparated each)

theorem allIn_conditionClause (depth : Nat) {keyword : Mark} {condition : Option Expr}
    (keeps : ∀ e ∈ condition.toList, e.KeepsTo v) :
    AllIn v (conditionClause depth keyword condition) := by
  cases condition with
  | none => exact allIn_nil
  | some e => exact allIn_clause depth (keeps e (by simp)).tokens

theorem allIn_aliasTokens (name : String) : AllIn v (aliasTokens name) :=
  .cons trivial (Token.AllIn.introduced (allIn_single (show (Token.name name).IsIn v from trivial)))

theorem allIn_optionalAlias (label : Option String) : AllIn v (optionalAlias label) := by
  cases label with
  | none => exact allIn_nil
  | some name => exact allIn_aliasTokens name

theorem allIn_rowTokens (depth : Nat) (rows : RowWindow) :
    AllIn v (Select.rowTokens depth rows) := by
  have count : ∀ (keyword : Mark) (n : Nat), AllIn v (introduced keyword [countToken n]) :=
    fun _ n => Token.AllIn.introduced (allIn_single (show (countToken n).IsIn v from trivial))
  have limit : AllIn v rows.limitTokens := by
    unfold RowWindow.limitTokens
    split
    · exact allIn_nil
    · exact count _ _
  have offset : AllIn v rows.offsetTokens := by
    unfold RowWindow.offsetTokens
    split
    · exact allIn_nil
    · exact allIn_nil
    · exact count _ _
  have both : AllIn v rows.tokens := limit.spaced offset
  unfold Select.rowTokens
  split
  · exact allIn_nil
  · exact (allIn_lineBreak depth).append both

theorem allIn_itemTokens (depth : Nat) {items : List SelectItem}
    (keeps : ∀ item ∈ items, item.expr.KeepsTo v) :
    AllIn v (Select.itemTokens depth items) := by
  have single : ∀ item ∈ items, AllIn v (lineBreak (depth + 1) ++ item.tokens) :=
    fun item member => (allIn_lineBreak _).append
      ((keeps item member).tokens.append (allIn_optionalAlias item.label))
  induction items with
  | nil => exact allIn_nil
  | cons item rest ih =>
    obtain ⟨head, tail⟩ := List.forall_mem_cons.mp single
    cases rest with
    | nil => exact head
    | cons next rest =>
      exact head.append (.cons trivial
        (ih (fun item member => keeps item (List.mem_cons_of_mem _ member)) tail))

theorem allIn_headTokens (depth : Nat) {body : Select} (keeps : ∀ e ∈ body.exprs, e.KeepsTo v) :
    AllIn v (body.headTokens depth) :=
  .cons trivial (allIn_itemTokens depth (forall_exprs.mp keeps).1)

theorem allIn_tailTokens (depth : Nat) {body : Select} (keeps : ∀ e ∈ body.exprs, e.KeepsTo v) :
    AllIn v (body.tailTokens depth) := by
  obtain ⟨-, filter, groupBy, having_, orderBy⟩ := forall_exprs.mp keeps
  have groups : ∀ part ∈ body.groupBy.map Expr.tokens, AllIn v part :=
    List.forall_mem_map.mpr fun e member => (groupBy e member).tokens
  have orders : ∀ part ∈ body.orderBy.map SortKey.tokens, AllIn v part :=
    List.forall_mem_map.mpr fun order member =>
      (orderBy order member).tokens.append (Token.allIn_directionTokens _)
  exact ((((allIn_conditionClause depth filter).append (allIn_listClause depth groups)).append
    (allIn_conditionClause depth having_)).append (allIn_listClause depth orders)).append
    (allIn_rowTokens depth body.rows)

theorem Query.allIn_tokensAt {query : Query} (keeps : ∀ e ∈ query.exprs, e.KeepsTo v)
    (depth : Nat) : AllIn v (query.tokensAt depth) := by
  induction query generalizing depth with
  | bare body => exact (allIn_headTokens depth keeps).append (allIn_tailTokens depth keeps)
  | ofTable body table label =>
    have source : AllIn v (.name table :: optionalAlias label) :=
      .cons trivial (allIn_optionalAlias label)
    exact ((allIn_headTokens depth keeps).append (allIn_clause depth source)).append
      (allIn_tailTokens depth keeps)
  | ofQuery body query label ih =>
    obtain ⟨outer, inner⟩ := List.forall_mem_append.mp keeps
    have source := (((allIn_lineBreak (depth + 1)).append (ih inner (depth + 1))).append
      (allIn_lineBreak depth)).parenthesized.append (allIn_aliasTokens label)
    exact ((allIn_headTokens depth outer).append (allIn_clause depth source)).append
      (allIn_tailTokens depth outer)

/-! ## Texts -/

/-- The words that statements for a database may spell, given the functions that are called. -/
def Database.vocabulary (database : Database) (Callable : String → Prop) : Vocabulary where
  function name := Callable name ∨ name ∈ database.functions
  word := (· ∈ fixedWords)

theorem Database.covers_vocabulary (database : Database) (Callable : String → Prop) :
    (database.vocabulary Callable).Covers database :=
  ⟨fun _ => .inr, fun _ => id⟩

/-- How a token may be spelled: names and strings are between quotes, and what is neither that nor a
number is one of a few fixed texts or the name of a function. -/
def Token.IsPermitted (database : Database) (Callable : String → Prop) (token : Token) : Prop :=
  let text := token.text database.dialect
  match token with
  | .name content | .string content =>
    ∃ mark, isQuote mark = true ∧ text = Text.quote mark content
  | .float x => x.isFinite = true ∨ text = "NULL"
  | .bool _ => text ∈ ["true", "false", "1", "0"]
  | .null => text = "NULL"
  | .function _ => Callable text ∨ text ∈ database.functions
  | .verbatim _ => text ∈ fixedWords
  | .int _ | .mark _ | .space | .newline | .indent _ => True

theorem mem_functions_of_rename {database : Database} {name native : String}
    (found : database.dialect.rename name = some native) : native ∈ database.functions := by
  have each : ∀ {table : List (String × String)}, (∀ entry ∈ table, entry.2 ∈ database.functions) →
      renameBy table name = some native → native ∈ database.functions := by
    intro table known found
    obtain ⟨entry, listed, rfl⟩ := Option.map_eq_some_iff.mp found
    exact known entry (List.mem_of_find?_eq_some listed)
  cases database
  case clickhouse | h2 | mysql => exact each (by decide) found
  all_goals cases found

theorem Token.isPermitted_of_isIn {database : Database} {Callable : String → Prop} {token : Token}
    (is : token.IsIn (database.vocabulary Callable)) : token.IsPermitted database Callable := by
  have tame := tame_dialect database
  cases token with
  | name content =>
    obtain ⟨mark, quote, same⟩ := tame.quoteName
    exact ⟨mark, quote, congrFun same content⟩
  | string content =>
    obtain ⟨mark, quote, same⟩ := tame.quoteString
    exact ⟨mark, quote, congrFun same content⟩
  | float x =>
    cases finite : x.isFinite with
    | true => exact .inl finite
    | false =>
      refine .inr ?_
      simp only [text, finite, Bool.false_eq_true, if_false]
      cases database <;> rfl
  | bool value =>
    show database.dialect.boolText value ∈ ["true", "false", "1", "0"]
    cases database <;> cases value <;> decide
  | null => cases database <;> rfl
  | function name =>
    cases native : database.dialect.rename name with
    | none =>
      have same : (Token.function name).text database.dialect = name := by simp [text, native]
      show Callable _ ∨ _
      rw [same]
      exact is
    | some other =>
      have same : (Token.function name).text database.dialect = other := by simp [text, native]
      show Callable _ ∨ _
      rw [same]
      exact .inr (mem_functions_of_rename native)
  | verbatim word => exact is
  | _ => trivial

end Rollup.Sql
