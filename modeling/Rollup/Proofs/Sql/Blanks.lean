import Rollup.Plan
import Rollup.Proofs.Sql.Grammar

/-! The blanks between the tokens of a statement.

A statement neither begins nor ends with a blank, and none of its blanks is empty. So both of its
texts are the texts of the same tokens. On several lines there are blanks between some of them, and
on one line there is a space in the place of these, but not right inside of parentheses.
-/

set_option autoImplicit false

namespace Rollup.Sql

/-! ## Texts of tokens -/

/-- What stands between two tokens on one line, given the blanks between them on several lines. -/
def gap (before : Token) (blanks : String) (token : Token) : String :=
  if blanks = "" ∨ before = .mark .leftParen ∨ token = .mark .rightParen then "" else " "

/-- Tokens with the blanks in front of each, on several lines. -/
def longText (d : Dialect) (parts : List (String × Token)) : String :=
  String.join (parts.map fun part => part.1 ++ part.2.text d)

def shortTextBehind (d : Dialect) (before : Token) : List (String × Token) → String
  | [] => ""
  | (blanks, token) :: rest =>
    gap before blanks token ++ token.text d ++ shortTextBehind d token rest

/-- Tokens on one line, given the blanks in front of each on several lines. -/
def shortText (d : Dialect) : List (String × Token) → String
  | [] => ""
  | (_, first) :: rest => first.text d ++ shortTextBehind d first rest

/-- A text on several lines and one on one line that are made of the same tokens. -/
structure Reflows (d : Dialect) (long short : String) (parts : List (String × Token)) : Prop where
  shown : ∀ part ∈ parts, part.2.isBlank = false
  blanks : ∀ part ∈ parts, ∀ c ∈ part.1.toList, c = ' ' ∨ c = '\n'
  start : ∀ part ∈ parts.head?, part.1 = ""
  long : long = longText d parts
  short : short = shortText d parts

/-- The tokens that show, each with the blanks in front of it, behind blanks that are there. -/
def partsBehind (d : Dialect) (blanks : String) : List Token → List (String × Token)
  | [] => []
  | token :: rest =>
    if token.isBlank then partsBehind d (blanks ++ token.text d) rest
    else (blanks, token) :: partsBehind d "" rest

section
variable {d : Dialect} {tokens : List Token} {blanks : String}

theorem map_snd_partsBehind (d : Dialect) (tokens : List Token) (blanks : String) :
    (partsBehind d blanks tokens).map (·.2) = visible tokens := by
  induction tokens generalizing blanks with
  | nil => rfl
  | cons token rest ih =>
    cases blank : token.isBlank with
    | true => simpa [partsBehind, visible, blank] using ih _
    | false => simpa [partsBehind, visible, blank] using ih ""

theorem isBlank_text {token : Token} (blank : token.isBlank = true) :
    ∀ c ∈ (token.text d).toList, c = ' ' ∨ c = '\n' := by
  intro c member
  cases token with
  | space => exact .inl (by simpa [Token.text] using member)
  | newline => exact .inr (by simpa [Token.text] using member)
  | indent depth =>
    rw [Token.text, String.toList_ofList] at member
    exact .inl (List.mem_replicate.mp member).2
  | _ => cases blank

theorem text_ne_empty {token : Token} (blank : token.isBlank = true) (wide : token ≠ .indent 0) :
    token.text d ≠ "" := by
  cases token with
  | space => exact (show " " ≠ "" by decide)
  | newline => exact (show "\n" ≠ "" by decide)
  | indent depth =>
    intro empty
    have none_ := congrArg String.toList empty
    rw [Token.text, String.toList_ofList, String.toList_empty, List.replicate_eq_nil_iff] at none_
    exact wide (congrArg Token.indent (by omega))
  | _ => cases blank

theorem isBlank_partsBehind (before : ∀ c ∈ blanks.toList, c = ' ' ∨ c = '\n') :
    ∀ part ∈ partsBehind d blanks tokens, ∀ c ∈ part.1.toList, c = ' ' ∨ c = '\n' := by
  induction tokens generalizing blanks with
  | nil => exact fun part member => absurd member List.not_mem_nil
  | cons token rest ih =>
    unfold partsBehind
    split
    · rename_i blank
      refine ih ?_
      rw [String.toList_append]
      exact List.forall_mem_append.mpr ⟨before, isBlank_text blank⟩
    · exact List.forall_mem_cons.mpr ⟨before, ih (by simp)⟩

theorem longText_partsBehind (shown : ∀ last ∈ tokens.getLast?, last.isBlank = false)
    (settled : tokens = [] → blanks = "") :
    longText d (partsBehind d blanks tokens) = blanks ++ spell d tokens := by
  induction tokens generalizing blanks with
  | nil => rw [settled rfl]; rfl
  | cons token rest ih =>
    have later : ∀ last ∈ rest.getLast?, last.isBlank = false := by
      intro last member
      refine shown last ?_
      rw [List.getLast?_cons, member]
      rfl
    have text : spell d (token :: rest) = token.text d ++ spell d rest := by
      rw [spell, List.map_cons, String.join_cons, spell]
    rw [text, ← String.append_assoc]
    unfold partsBehind
    split
    · rename_i blank
      refine ih later fun empty => ?_
      -- A blank behind which nothing stands would be the last token.
      rw [shown token (by simp [empty])] at blank
      cases blank
    · have behind : longText d (partsBehind d "" rest) = "" ++ spell d rest :=
        ih later fun _ => rfl
      rw [longText, List.map_cons, String.join_cons, ← longText, behind, String.empty_append]

theorem shortTextBehind_partsBehind (before : Token)
    (wide : ∀ token ∈ tokens, token ≠ .indent 0) :
    shortTextBehind d before (partsBehind d blanks tokens) =
      String.join
        (spellRest d true (decide (blanks ≠ "")) (before == .mark .leftParen) tokens) := by
  induction tokens generalizing blanks before with
  | nil => rfl
  | cons token rest ih =>
    obtain ⟨first, others⟩ := List.forall_mem_cons.mp wide
    unfold partsBehind spellRest
    split
    · rename_i blank
      have more : blanks ++ token.text d ≠ "" := fun empty =>
        text_ne_empty blank first (String.append_eq_empty_iff.mp empty).2
      rw [ih before others, decide_eq_true more]
    · have behind : shortTextBehind d token (partsBehind d "" rest) =
          String.join (spellRest d true false (token == .mark .leftParen) rest) := ih token others
      rw [shortTextBehind, behind]
      have spaced : (decide (blanks ≠ "") && spaceBefore token true (before == .mark .leftParen)) =
          decide (¬(blanks = "" ∨ before = .mark .leftParen ∨ token = .mark .rightParen)) := by
        rw [Bool.eq_iff_iff]
        simp [spaceBefore]
      dsimp only
      rw [spaced, gap]
      split
      · rename_i inside
        simp [inside, String.join_cons]
      · rename_i apart
        simp [apart, String.join_cons, String.append_assoc]

theorem reflows_of_start {first : Token} {rest : List Token} (shown : first.isBlank = false)
    (written : first.text d ≠ "") (wide : ∀ token ∈ rest, token ≠ .indent 0)
    (last : ∀ last ∈ (first :: rest).getLast?, last.isBlank = false) :
    Reflows d (spell d (first :: rest)) (spellCompact d (first :: rest))
      (partsBehind d "" (first :: rest)) := by
  have parts : partsBehind d "" (first :: rest) = ("", first) :: partsBehind d "" rest := by
    rw [partsBehind, shown]
    rfl
  refine ⟨?_, isBlank_partsBehind (by simp), ?_, ?_, ?_⟩
  · intro part member
    have listed := List.mem_map_of_mem (f := (·.2)) member
    rw [map_snd_partsBehind, visible, List.mem_filter] at listed
    simpa using listed.2
  · rw [parts]
    exact fun part member => by cases member; rfl
  · rw [longText_partsBehind last fun _ => rfl, String.empty_append]
  · have started : (first.text d).isEmpty = false := by simpa using written
    rw [parts, shortText, shortTextBehind_partsBehind first wide, spellCompact, spellRest, shown]
    simp [started, String.join_cons]

end

/-! ## Ends of clauses -/

/-- No blank is empty. -/
def Wide (tokens : List Token) : Prop := ∀ token ∈ tokens, token ≠ .indent 0

/-- Tokens that may be absent, and do not end with a blank. -/
structure Settled (tokens : List Token) : Prop where
  wide : Wide tokens
  last : ∀ last ∈ tokens.getLast?, last.isBlank = false

/-- Tokens that are there, and do not end with a blank. -/
structure Ends (tokens : List Token) : Prop extends Settled tokens where
  nonempty : tokens ≠ []

section
variable {tokens front : List Token} {token : Token}

theorem wide_nil : Wide [] := fun _ member => absurd member List.not_mem_nil

theorem Wide.cons (first : token ≠ .indent 0) (rest : Wide tokens) : Wide (token :: tokens) :=
  List.forall_mem_cons.mpr ⟨first, rest⟩

theorem Wide.append (before : Wide front) (behind : Wide tokens) : Wide (front ++ tokens) :=
  List.forall_mem_append.mpr ⟨before, behind⟩

theorem settled_nil : Settled [] := ⟨wide_nil, by simp⟩

theorem Ends.behind (ends : Ends tokens) (before : Wide front) : Ends (front ++ tokens) := by
  refine ⟨⟨before.append ends.wide, ?_⟩, ?_⟩
  · rw [List.getLast?_append_of_ne_nil _ ends.nonempty]
    exact ends.last
  · exact List.append_ne_nil_of_right_ne_nil _ ends.nonempty

theorem Ends.cons (first : token ≠ .indent 0) (ends : Ends tokens) : Ends (token :: tokens) :=
  ends.behind (wide_nil.cons first)

theorem ends_single (shown : token.isBlank = false) : Ends [token] := by
  refine ⟨⟨wide_nil.cons ?_, ?_⟩, List.cons_ne_nil _ _⟩
  · rintro rfl
    cases shown
  · exact fun last member => by cases member; exact shown

theorem Settled.append (before : Settled front) (behind : Settled tokens) :
    Settled (front ++ tokens) := by
  by_cases absent : tokens = []
  · rwa [absent, List.append_nil]
  · exact (Ends.behind ⟨behind, absent⟩ before.wide).toSettled

theorem Ends.append (before : Ends front) (behind : Settled tokens) : Ends (front ++ tokens) :=
  ⟨before.toSettled.append behind, List.append_ne_nil_of_left_ne_nil before.nonempty _⟩

theorem Ends.introduced {keyword : Mark} (body : Ends tokens) : Ends (introduced keyword tokens) :=
  .cons (by simp) (.cons (by simp) body)

theorem ends_parenthesized (inside : Wide tokens) : Ends (parenthesized tokens) :=
  .cons (by simp) ((ends_single rfl).behind inside)

theorem Ends.wrapped (parens : Bool) (ends : Ends tokens) : Ends (Expr.wrapped parens tokens) := by
  unfold Expr.wrapped
  split
  · exact ends_parenthesized ends.wide
  · exact ends

theorem Settled.spaced {others : List Token} (first : Settled tokens) (second : Settled others) :
    Settled
      (if tokens.isEmpty || others.isEmpty then tokens ++ others
        else tokens ++ .space :: others) := by
  split
  · exact first.append second
  · rename_i both
    have nonempty : others ≠ [] := fun absent => both (by simp [absent])
    exact first.append (Ends.cons (by simp) ⟨second, nonempty⟩).toSettled

theorem ends_commaSeparated {part : List Token} {parts : List (List Token)}
    (each : ∀ one ∈ part :: parts, Ends one) : Ends (commaSeparated (part :: parts)) := by
  induction parts generalizing part with
  | nil => exact each part List.mem_cons_self
  | cons next rest ih =>
    obtain ⟨first, others⟩ := List.forall_mem_cons.mp each
    have comma : Wide [.mark .comma, .space] := (wide_nil.cons (by simp)).cons (by simp)
    exact (ih others).behind (first.wide.append comma)

theorem settled_commaSeparated {parts : List (List Token)} (each : ∀ part ∈ parts, Ends part) :
    Settled (commaSeparated parts) := by
  cases parts with
  | nil => exact settled_nil
  | cons part rest => exact (ends_commaSeparated each).toSettled

theorem ends_qualified {last : Token} (table : Option String) (shown : last.isBlank = false) :
    Ends (qualified table last) := by
  cases table with
  | none => exact ends_single shown
  | some table => exact .cons (by simp) (.cons (by simp) (ends_single shown))

theorem settled_directionTokens (direction : Option Direction) :
    Settled (directionTokens direction) := by
  cases direction with
  | none => exact settled_nil
  | some direction => exact (Ends.cons (by simp) (ends_single rfl)).toSettled

end

/-! ## Expressions -/

namespace Expr

theorem wide_op (op : BinaryOp) : Wide op.tokens := by
  cases op <;> simp [Wide, BinaryOp.tokens]

theorem wide_overTokens {partitionBy orderBy : List (List Token)}
    (parts : ∀ part ∈ partitionBy, Ends part) (orders : ∀ order ∈ orderBy, Ends order) :
    Wide (overTokens partitionBy orderBy) := by
  have clause : ∀ (keyword : Mark) {items : List (List Token)}, (∀ item ∈ items, Ends item) →
      Settled (if items.isEmpty then [] else introduced keyword (commaSeparated items)) := by
    intro keyword items each
    cases items with
    | nil => exact settled_nil
    | cons item rest => exact (ends_commaSeparated each).introduced.toSettled
  exact ((clause .partitionBy parts).spaced (clause .orderBy orders)).wide

theorem ends_tokens (e : Expr) : Ends e.tokens := by
  induction e with
  | column table name => exact ends_qualified table rfl
  | literal value => cases value <;> exact ends_single rfl
  | binary op left right ihl ihr =>
    have operator : Wide (.space :: op.tokens ++ [.space]) :=
      ((wide_op op).cons (by simp)).append (by simp [Wide])
    have whole := (ihr.wrapped (right.atMost op.strength)).behind
      ((ihl.wrapped (left.looserThan op.strength)).wide.append operator)
    simpa [tokens] using whole
  | unary op operand ih =>
    cases op with
    | not => exact .cons (by simp) (.cons (by simp) (ih.wrapped _))
    | minus => exact .cons (by simp) (ih.wrapped _)
  | function name args distinct ihs =>
    have list : Settled (commaSeparated (tokensEach args)) := by
      rw [tokensEach_eq]
      exact settled_commaSeparated (List.forall_mem_map.mpr ihs)
    have quantifier : Wide (if distinct then [.mark .distinct, .space] else []) := by
      cases distinct <;> simp [Wide]
    exact .cons (by simp) (ends_parenthesized (quantifier.append list.wide))
  | inList operand values negated ih ihs =>
    cases values with
    | nil => exact ends_single rfl
    | cons value rest =>
      have list : Ends (commaSeparated (tokensEach (value :: rest))) := by
        rw [tokensEach_eq]
        exact ends_commaSeparated (List.forall_mem_map.mpr ihs)
      have member : Wide ((if negated then [.space, .mark .not] else []) ++
          [.space, .mark .member, .space]) := by
        cases negated <;> simp [Wide]
      have whole := (ends_parenthesized list.wide).behind
        ((ih.wrapped (operand.atMost comparisonStrength)).wide.append member)
      simpa [tokens, tokensEach] using whole
  | isNull operand negated ih =>
    have test : Ends [.space, .mark (if negated then .isNotNull else .isNull)] :=
      .cons (by simp) (ends_single rfl)
    exact test.behind (ih.wrapped _).wide
  | star table => exact ends_qualified table rfl
  | window call partitionBy orderBy ih ihp iho =>
    have parts : ∀ part ∈ tokensEach partitionBy, Ends part := by
      rw [tokensEach_eq]
      exact List.forall_mem_map.mpr ihp
    have orders : ∀ order ∈ tokensKeys orderBy, Ends order := by
      rw [tokensKeys_eq]
      exact List.forall_mem_map.mpr fun order member =>
        (iho order member).append (settled_directionTokens order.direction)
    have marked : Wide [.space, .mark .over, .space] := by simp [Wide]
    exact (ends_parenthesized (wide_overTokens parts orders)).behind (ih.wide.append marked)
  | interval count unit =>
    exact .introduced (.cons (by simp) (.cons (by simp) (ends_single rfl)))
  | typed type text => exact .cons (by simp) (.cons (by simp) (ends_single rfl))

end Expr

/-! ## Statements -/

theorem wide_lineBreak (depth : Nat) : Wide (lineBreak depth) := by
  unfold lineBreak
  split
  · simp [Wide]
  · rename_i deep
    simp [Wide, deep]

theorem ends_clause {body : List Token} (depth : Nat) (keyword : Mark) (ends : Ends body) :
    Ends (clause depth keyword body) :=
  ends.introduced.behind (wide_lineBreak depth)

theorem ends_aliasTokens (name : String) : Ends (aliasTokens name) :=
  .cons (by simp) (.introduced (ends_single rfl))

theorem settled_optionalAlias (label : Option String) : Settled (optionalAlias label) := by
  cases label with
  | none => exact settled_nil
  | some name => exact (ends_aliasTokens name).toSettled

theorem settled_itemTokens (depth : Nat) (items : List SelectItem) :
    Settled (Select.itemTokens depth items) := by
  have single : ∀ item : SelectItem, Ends (lineBreak (depth + 1) ++ item.tokens) := fun item =>
    ((Expr.ends_tokens _).append (settled_optionalAlias item.label)).behind (wide_lineBreak _)
  fun_induction Select.itemTokens depth items with
  | case1 => exact settled_nil
  | case2 last => exact (single last).toSettled
  | case3 item next rest ih =>
    have comma : Ends [.mark .comma] := ends_single rfl
    simpa using ((single item).append (comma.append ih).toSettled).toSettled

theorem settled_listClause (depth : Nat) (keyword : Mark) {parts : List (List Token)}
    (each : ∀ part ∈ parts, Ends part) : Settled (listClause depth keyword parts) := by
  cases parts with
  | nil => exact settled_nil
  | cons part rest => exact (ends_clause depth keyword (ends_commaSeparated each)).toSettled

theorem settled_conditionClause (depth : Nat) (keyword : Mark) (condition : Option Expr) :
    Settled (conditionClause depth keyword condition) := by
  cases condition with
  | none => exact settled_nil
  | some e => exact (ends_clause depth keyword e.ends_tokens).toSettled

theorem settled_rowTokens (depth : Nat) (rows : RowWindow) :
    Settled (Select.rowTokens depth rows) := by
  have count : ∀ (keyword : Mark) (n : Nat), Settled (introduced keyword [countToken n]) :=
    fun keyword n => (ends_single rfl).introduced.toSettled
  have limit : Settled rows.limitTokens := by
    unfold RowWindow.limitTokens
    split
    · exact settled_nil
    · exact count _ _
  have offset : Settled rows.offsetTokens := by
    unfold RowWindow.offsetTokens
    split
    · exact settled_nil
    · exact settled_nil
    · exact count _ _
  unfold Select.rowTokens
  split
  · exact settled_nil
  · rename_i present
    have nonempty : rows.tokens ≠ [] := by simpa using present
    exact (Ends.behind ⟨limit.spaced offset, nonempty⟩ (wide_lineBreak depth)).toSettled

theorem settled_tailTokens (depth : Nat) (body : Select) : Settled (body.tailTokens depth) := by
  have groups : Settled (listClause depth .groupBy (body.groupBy.map Expr.tokens)) :=
    settled_listClause depth .groupBy (List.forall_mem_map.mpr fun e _ => e.ends_tokens)
  have orders : Settled (listClause depth .orderBy (body.orderBy.map SortKey.tokens)) :=
    settled_listClause depth .orderBy (List.forall_mem_map.mpr fun order _ =>
      order.key.ends_tokens.append (settled_directionTokens order.direction))
  exact ((((settled_conditionClause depth .filter body.filter).append groups).append
    (settled_conditionClause depth .having body.having)).append orders).append
    (settled_rowTokens depth body.rows)

/-- A statement begins with `SELECT`, and ends without a blank. -/
theorem tokensAt_eq_select (query : Query) (depth : Nat) : ∃ rest,
    query.tokensAt depth = .mark .select :: rest ∧ Settled rest := by
  induction query generalizing depth with
  | bare body =>
    exact ⟨_, rfl, (settled_itemTokens depth _).append (settled_tailTokens depth body)⟩
  | ofTable body table label =>
    have source : Ends (clause depth .source (.name table :: optionalAlias label)) :=
      ends_clause depth _ ((ends_single rfl).append (settled_optionalAlias label))
    exact ⟨_, rfl, ((settled_itemTokens depth _).append source.toSettled).append
      (settled_tailTokens depth body)⟩
  | ofQuery body query label ih =>
    obtain ⟨rest, tokens, settled⟩ := ih (depth + 1)
    have inner : Wide (query.tokensAt (depth + 1)) := tokens ▸ settled.wide.cons (by simp)
    have source : Ends (clause depth .source
        (parenthesized (lineBreak (depth + 1) ++ query.tokensAt (depth + 1) ++ lineBreak depth) ++
          aliasTokens label)) := by
      refine ends_clause depth _ ((ends_parenthesized ?_).append (ends_aliasTokens label).toSettled)
      exact ((wide_lineBreak _).append inner).append (wide_lineBreak _)
    exact ⟨_, rfl, ((settled_itemTokens depth _).append source.toSettled).append
      (settled_tailTokens depth body)⟩

theorem Query.reflows (d : Dialect) (query : Query) : ∃ parts,
    Reflows d (query.pretty d) (query.compact d) (("", .mark .select) :: parts) ∧
      .mark .select :: parts.map (·.2) = visible query.tokens := by
  obtain ⟨rest, tokens, settled⟩ := tokensAt_eq_select query 0
  have last : ∀ last ∈ (Token.mark .select :: rest).getLast?, last.isBlank = false :=
    ((ends_single rfl).append settled).last
  refine ⟨partsBehind d "" rest, ?_, ?_⟩
  · rw [pretty, compact, Query.tokens, tokens]
    exact reflows_of_start rfl (show "SELECT" ≠ "" by decide) settled.wide last
  · rw [map_snd_partsBehind, Query.tokens, tokens]
    rfl

theorem Reflows.head?_toList {d : Dialect} {long short : String} {parts : List (String × Token)}
    (reflows : Reflows d long short (("", .mark .select) :: parts)) :
    long.toList.head? = some 'S' ∧ short.toList.head? = some 'S' := by
  rw [reflows.long, reflows.short]
  simp [longText, shortText, String.join_cons, Token.text, Mark.text]

end Rollup.Sql

namespace Rollup.Plan

/-- The tokens of the statement of a plan; none without a stage. -/
def tokens (plan : Plan) : List Sql.Token := plan.query?.elim [] Sql.Query.tokens

/-- The text of a plan on one line is made of the tokens of that on several lines: where this has a
blank between two tokens, that has one space, but for the inside of parentheses. Neither begins with
a blank. -/
theorem toSql_reflows (d : Sql.Dialect) (plan : Plan) : ∃ parts,
    Sql.Reflows d (plan.toSql d true) (plan.toSql d false) parts ∧
      parts.map (·.2) = Sql.visible plan.tokens ∧
      ∀ pretty, ∀ c ∈ (plan.toSql d pretty).toList.head?, c.isWhitespace = false := by
  cases found : plan.query? with
  | none =>
    refine ⟨[], ?_, ?_, ?_⟩
    · simp only [toSql, found]
      exact ⟨by simp, by simp, by simp, rfl, rfl⟩
    · rw [tokens, found]
      rfl
    · intro pretty c first
      simp [toSql, found] at first
  | some query =>
    obtain ⟨parts, reflows, shown⟩ := query.reflows d
    refine ⟨("", .mark .select) :: parts, ?_, ?_, ?_⟩
    · simpa only [toSql, found, if_true, Bool.false_eq_true, if_false] using reflows
    · rw [tokens, found]
      exact shown
    · intro pretty c first
      obtain ⟨long, short⟩ := reflows.head?_toList
      have capital : (plan.toSql d pretty).toList.head? = some 'S' := by
        cases pretty with
        | false => simpa [toSql, found] using short
        | true => simpa [toSql, found] using long
      rw [capital] at first
      cases first
      rfl

end Rollup.Plan
