import Rollup.Proofs.Sql.Minus

/-! Tests in a row.

Comparisons, `IN` and `IS NULL` are the tests. They do not associate, so a test that is an operand
of a test needs parentheses. `chains` finds two tests in the same parentheses that nothing
separates: no `AND` or `OR`, no comma and no keyword of a clause. In what an expression is written
with, they come from a comparison with a test on its left, and from nothing else.
-/

set_option autoImplicit false

namespace Rollup.Sql

/-! ## Sequences of tokens -/

def Mark.isTest : Mark → Bool
  | .eq | .ne | .lt | .gt | .lte | .gte | .like | .member | .isNull | .isNotNull => true
  | _ => false

/-- Whether what stands on the two sides of a mark has no operand in common. -/
def Mark.separates : Mark → Bool
  | .and | .or | .comma | .select | .source | .filter | .groupBy | .having | .orderBy
  | .partitionBy | .limit | .offset => true
  | _ => false

/-- Whether a test has been read since the last separator, inside of each parenthesis that is open,
the innermost one first; none behind two tests in a row. -/
def Token.tested? : List Bool → Token → Option (List Bool)
  | opened, .mark .leftParen => some (false :: opened)
  | opened, .mark .rightParen => some opened.tail
  | tested :: outer, .mark m =>
    if m.separates then some (false :: outer)
    else if m.isTest then if tested then none else some (true :: outer)
    else some (tested :: outer)
  | opened, _ => some opened

/-- Whether two tests stand in a row somewhere. -/
def chains (tokens : List Token) : Bool := (tokens.foldlM Token.tested? [false]).isNone

/-- Tokens that leave open what is open, and whether there is a test to go on from before and after
them; where they chain there is no after. -/
def Tested (chained before after : Bool) (tokens : List Token) : Prop :=
  ∀ outer, tokens.foldlM Token.tested? (before :: outer) =
    if chained then none else some (after :: outer)

/-- Tokens in front of which there is no test to go on from. -/
def Fresh (chained : Bool) (tokens : List Token) : Prop :=
  ∃ after, Tested chained false after tokens

def Apart (chained : Bool) (tokens : List Token) : Prop :=
  ∀ before, ∃ after, Tested chained before after tokens

section
variable {a b before between after : Bool} {first second tokens : List Token} {token : Token}

theorem Tested.congr (tested : Tested a before after tokens) (same : a = b) :
    Tested b before after tokens := same ▸ tested

theorem Tested.nil : Tested false before before [] := fun _ => rfl

theorem Tested.append (left : Tested a before between first)
    (right : Tested b between after second) : Tested (a || b) before after (first ++ second) := by
  intro outer
  rw [List.foldlM_append, left outer]
  cases a
  · exact right outer
  · rfl

theorem Tested.cons (neutral : ∀ outer, token.tested? (before :: outer) = some (between :: outer))
    (rest : Tested a between after tokens) : Tested a before after (token :: tokens) := by
  intro outer
  rw [List.foldlM_cons, neutral]
  exact rest outer

theorem Tested.single (neutral : ∀ outer, token.tested? (before :: outer) = some (after :: outer)) :
    Tested false before after [token] :=
  .cons neutral .nil

theorem Tested.space (rest : Tested a before after tokens) :
    Tested a before after (.space :: tokens) :=
  rest.cons fun _ => rfl

theorem Tested.parenthesized (inside : Fresh a tokens) :
    Tested a before before (parenthesized tokens) := by
  obtain ⟨last, inside⟩ := inside
  intro outer
  have opened : (Token.mark .leftParen).tested? (before :: outer) =
      some (false :: before :: outer) := rfl
  unfold Sql.parenthesized
  rw [List.foldlM_cons, opened, Option.bind_eq_bind, Option.bind_some, List.foldlM_append,
    inside (before :: outer)]
  cases a <;> rfl

theorem fresh_nil : Fresh false [] := ⟨false, .nil⟩

theorem Fresh.append (left : Fresh a first) (right : Apart b second) :
    Fresh (a || b) (first ++ second) := by
  obtain ⟨between, left⟩ := left
  obtain ⟨after, right⟩ := right between
  exact ⟨after, left.append right⟩

theorem Apart.fresh (apart : Apart a tokens) : Fresh a tokens := apart false

theorem apart_nil : Apart false [] := fun before => ⟨before, .nil⟩

theorem Apart.congr (apart : Apart a tokens) (same : a = b) : Apart b tokens := same ▸ apart

theorem Apart.append (left : Apart a first) (right : Apart b second) :
    Apart (a || b) (first ++ second) := by
  intro before
  obtain ⟨between, left⟩ := left before
  obtain ⟨after, right⟩ := right between
  exact ⟨after, left.append right⟩

theorem Fresh.separated {m : Mark} (separates : m.separates = true) (fresh : Fresh a tokens) :
    Apart a (.mark m :: tokens) := by
  obtain ⟨after, tested⟩ := fresh
  refine fun before => ⟨after, tested.cons fun outer => ?_⟩
  cases m <;> first | rfl | cases separates

theorem Fresh.space (fresh : Fresh a tokens) : Fresh a (.space :: tokens) := by
  obtain ⟨after, tested⟩ := fresh
  exact ⟨after, tested.space⟩

theorem Fresh.introduced (body : Fresh a tokens) (keyword : Mark)
    (separates : keyword.separates = true) : Apart a (introduced keyword tokens) :=
  body.space.separated separates

theorem fresh_commaSeparated {α : Type} {bad : α → Bool} {write : α → List Token} {items : List α}
    (each : ∀ item ∈ items, Fresh (bad item) (write item)) :
    Fresh (items.any bad) (commaSeparated (items.map write)) := by
  induction items with
  | nil => exact fresh_nil
  | cons item rest ih =>
    obtain ⟨first, others⟩ := List.forall_mem_cons.mp each
    cases rest with
    | nil =>
      obtain ⟨after, tested⟩ := first
      exact ⟨after, tested.congr (by simp)⟩
    | cons next rest =>
      have comma := (ih others).space.separated (m := .comma) rfl
      simpa [commaSeparated] using first.append comma

end

/-! ## Expressions -/

namespace Expr

def isTest (e : Expr) : Bool := e.strength? == some comparisonStrength

/-- Whether an expression is a comparison with a test on its left. -/
def goesOn : Expr → Bool
  | .binary op left _ => op.strength == comparisonStrength && left.isTest
  | _ => false

mutual

/-- Whether what is written of an expression has a comparison with a test on its left. Nothing is
written of what is tested against an empty list. -/
def chainsTests : Expr → Bool
  | .column .. | .literal _ | .star _ | .interval .. | .typed .. => false
  | .binary op left right =>
    goesOn (.binary op left right) || chainsTests left || chainsTests right
  | .unary _ operand => chainsTests operand
  | .function _ args _ => chainsTestsEach args
  | .inList _ [] _ => false
  | .inList operand (value :: values) _ =>
    chainsTests operand || (chainsTests value || chainsTestsEach values)
  | .isNull operand _ => chainsTests operand
  | .window call partitionBy orderBy =>
    chainsTests call || chainsTestsEach partitionBy || chainsTestsKeys orderBy

def chainsTestsEach : List Expr → Bool
  | [] => false
  | e :: rest => chainsTests e || chainsTestsEach rest

def chainsTestsKeys : List (SortKey Expr) → Bool
  | [] => false
  | ⟨e, _⟩ :: rest => chainsTests e || chainsTestsKeys rest

end

theorem chainsTestsEach_eq (es : List Expr) : chainsTestsEach es = es.any chainsTests := by
  induction es with
  | nil => rfl
  | cons e rest ih => rw [chainsTestsEach, ih, List.any_cons]

theorem chainsTestsKeys_eq (orders : List (SortKey Expr)) :
    chainsTestsKeys orders = orders.any (·.key.chainsTests) := by
  induction orders with
  | nil => rfl
  | cons order rest ih => rw [chainsTestsKeys, ih, List.any_cons]

/-- How the tests in an expression are read. One that binds more strongly than tests goes on from
anything, and one that is a test leaves itself to go on from. -/
structure Reading (e : Expr) : Prop where
  tight : e.atMost comparisonStrength = false →
    ∀ before, Tested e.chainsTests before before e.tokens
  fresh : Fresh e.chainsTests e.tokens
  test : e.isTest = true → Tested e.chainsTests false true e.tokens

section
variable {e : Expr} {parens : Bool}

theorem isTest_eq_false (tight : e.atMost comparisonStrength = false) : e.isTest = false := by
  unfold atMost at tight
  unfold isTest
  cases strength : e.strength? with
  | none => rfl
  | some n =>
    rw [strength] at tight
    have above : ¬ n ≤ comparisonStrength := by simpa using tight
    simp only [beq_eq_false_iff_ne, ne_eq, Option.some.injEq]
    omega

/-- What binds more strongly than tests is read the same everywhere. -/
theorem reading_of_tight (tight : e.atMost comparisonStrength = false)
    (tested : ∀ before, Tested e.chainsTests before before e.tokens) : Reading e where
  tight _ := tested
  fresh := ⟨false, tested false⟩
  test is := by
    rw [isTest_eq_false tight] at is
    cases is

theorem Reading.wrapped (reading : Reading e)
    (enclosed : parens = true ∨ e.atMost comparisonStrength = false) (before : Bool) :
    Tested e.chainsTests before before (wrapped parens e.tokens) := by
  unfold Expr.wrapped
  split
  · exact .parenthesized reading.fresh
  · rename_i bare
    exact reading.tight (enclosed.resolve_left bare) before

theorem Reading.enclosed (reading : Reading e) (before : Bool) :
    Tested e.chainsTests before before
      (Expr.wrapped (e.atMost comparisonStrength) e.tokens) := by
  refine reading.wrapped ?_ before
  by_cases tight : e.atMost comparisonStrength = true
  · exact .inl tight
  · exact .inr (Bool.eq_false_iff.mpr tight)

theorem Reading.anywhere (reading : Reading e) :
    Fresh e.chainsTests (Expr.wrapped parens e.tokens) := by
  unfold Expr.wrapped
  split
  · exact ⟨false, .parenthesized reading.fresh⟩
  · exact reading.fresh

theorem Reading.left (reading : Reading e) :
    Tested e.chainsTests false e.isTest
      (Expr.wrapped (e.looserThan comparisonStrength) e.tokens) := by
  cases test : e.isTest with
  | true =>
    have strength : e.strength? = some comparisonStrength := by simpa [isTest] using test
    have bare : e.looserThan comparisonStrength = false := by simp [looserThan, strength]
    rw [bare]
    exact reading.test test
  | false =>
    refine reading.wrapped ?_ false
    unfold isTest at test
    unfold looserThan atMost
    cases strength : e.strength? with
    | none => exact .inr rfl
    | some n =>
      rw [strength] at test
      simp only [beq_eq_false_iff_ne, ne_eq, Option.some.injEq] at test
      simp only [Option.any_some, decide_eq_true_eq, decide_eq_false_iff_not]
      omega

end

/-- Behind `AND` and `OR` there is nothing to go on from. -/
theorem tested_loose {op : BinaryOp} (loose : op.strength < notStrength) (before : Bool) :
    Tested false before false (.space :: op.tokens ++ [.space]) := by
  intro outer
  cases op <;> first | rfl | exact absurd loose (by decide)

theorem tested_comparison {op : BinaryOp} (comparison : op.strength = comparisonStrength)
    (before : Bool) : Tested before before true (.space :: op.tokens ++ [.space]) := by
  intro outer
  cases op <;> first | (cases before <;> rfl) | exact absurd comparison (by decide)

theorem tested_tight {op : BinaryOp} (tight : comparisonStrength < op.strength) (before : Bool) :
    Tested false before before (.space :: op.tokens ++ [.space]) := by
  intro outer
  cases op <;> first | rfl | exact absurd tight (by decide)

section
variable {op : BinaryOp} {left right : Expr} (l : Reading left) (r : Reading right)

theorem tokens_binary (op : BinaryOp) (left right : Expr) : (binary op left right).tokens =
    wrapped (left.looserThan op.strength) left.tokens ++ (.space :: op.tokens ++ [.space]) ++
      wrapped (right.atMost op.strength) right.tokens := by
  simp [tokens]

theorem chainsTests_of_ne (other : op.strength ≠ comparisonStrength) :
    (left.chainsTests || false || right.chainsTests) = (binary op left right).chainsTests := by
  have differ : (op.strength == comparisonStrength) = false := beq_false_of_ne other
  simp [chainsTests, goesOn, differ]

include l r

theorem reading_loose (loose : op.strength < notStrength) : Reading (.binary op left right) := by
  have below : op.strength < comparisonStrength := Nat.lt_trans loose (by decide)
  obtain ⟨between, first⟩ : Fresh left.chainsTests
    (wrapped (left.looserThan op.strength) left.tokens) := l.anywhere
  obtain ⟨after, second⟩ : Fresh right.chainsTests
    (wrapped (right.atMost op.strength) right.tokens) := r.anywhere
  have whole := (first.append (tested_loose loose between)).append second
  refine ⟨fun strong => ?_, ⟨after, ?_⟩, fun is => ?_⟩
  · have above : ¬ op.strength ≤ comparisonStrength := by simpa [atMost, strength?] using strong
    omega
  · rw [tokens_binary]
    exact whole.congr (chainsTests_of_ne (Nat.ne_of_lt below))
  · have same : op.strength = comparisonStrength := by simpa [isTest, strength?] using is
    omega

theorem reading_comparison (comparison : op.strength = comparisonStrength) :
    Reading (.binary op left right) := by
  have first := l.left.append (tested_comparison comparison left.isTest)
  have whole : Tested (binary op left right).chainsTests false true
      (binary op left right).tokens := by
    rw [tokens_binary, comparison]
    refine (first.append (r.enclosed true)).congr ?_
    simp [chainsTests, goesOn, comparison, Bool.or_comm]
  refine ⟨fun strong => ?_, ⟨true, whole⟩, fun _ => whole⟩
  simp [atMost, strength?, comparison] at strong

theorem reading_tight (tight : comparisonStrength < op.strength) :
    Reading (.binary op left right) := by
  refine reading_of_tight (by simpa [atMost, strength?] using tight) fun before => ?_
  obtain ⟨looser, least⟩ : (left.looserThan op.strength = true ∨
      left.atMost comparisonStrength = false) ∧ (right.atMost op.strength = true ∨
      right.atMost comparisonStrength = false) := by
    unfold looserThan atMost
    constructor
    · cases left.strength? with
      | none => exact .inr rfl
      | some n =>
        simp only [Option.any_some, decide_eq_true_eq, decide_eq_false_iff_not]
        omega
    · cases right.strength? with
      | none => exact .inr rfl
      | some n =>
        simp only [Option.any_some, decide_eq_true_eq, decide_eq_false_iff_not]
        omega
  rw [tokens_binary]
  exact (((l.wrapped looser before).append (tested_tight tight before)).append
    (r.wrapped least before)).congr (chainsTests_of_ne (Nat.ne_of_gt tight))

end

abbrev CallsWindows (e : Expr) : Prop := e.KeepsTo ⟨fun _ => True, fun _ => True⟩

theorem tested_qualified (table : Option String) {last : Token}
    (neutral : ∀ before outer, last.tested? (before :: outer) = some (before :: outer))
    (before : Bool) : Tested false before before (qualified table last) := by
  have single : Tested false before before [last] := .single (neutral before)
  cases table with
  | none => exact single
  | some table => exact (single.cons fun _ => rfl).cons fun _ => rfl

theorem tested_directionTokens (direction : Option Direction) (before : Bool) :
    Tested false before before (directionTokens direction) := by
  rcases direction with _ | _ | _
  · exact .nil
  · exact .space (.single fun _ => rfl)
  · exact .space (.single fun _ => rfl)

theorem fresh_sortKey (order : SortKey Expr) (reading : Reading order.key) :
    Fresh order.key.chainsTests order.tokens := by
  obtain ⟨after, tested⟩ := reading.fresh
  exact ⟨after, (tested.append (tested_directionTokens order.direction after)).congr
    (Bool.or_false _)⟩

theorem fresh_overTokens {partitionBy : List Expr} {orderBy : List (SortKey Expr)}
    (parts : ∀ part ∈ partitionBy, Reading part)
    (orders : ∀ order ∈ orderBy, Reading order.key) :
    Fresh (partitionBy.any chainsTests || orderBy.any (·.key.chainsTests))
      (overTokens (partitionBy.map tokens) (orderBy.map SortKey.tokens)) := by
  have listed := fresh_commaSeparated fun part member => (parts part member).fresh
  have ordered := fresh_commaSeparated fun order member => fresh_sortKey order (orders order member)
  cases partitionBy with
  | nil =>
    cases orderBy with
    | nil => exact fresh_nil
    | cons => exact (ordered.introduced .orderBy rfl).fresh
  | cons =>
    have first := (listed.introduced .partitionBy rfl).fresh
    cases orderBy with
    | nil => exact first.append apart_nil
    | cons =>
      have second := ordered.introduced .orderBy rfl
      exact first.append fun before => (second before).imp fun _ => Tested.space

/-- In an expression tests are read in a row just where a comparison goes on from a test. -/
theorem reading_tokens (e : Expr) (windows : e.CallsWindows) : Reading e := by
  induction e with
  | column table name => exact reading_of_tight rfl (tested_qualified table fun _ _ => rfl)
  | literal value =>
    exact reading_of_tight rfl fun before => .single fun _ => by cases value <;> rfl
  | binary op left right ihl ihr =>
    obtain ⟨l, r⟩ := keepsTo_binary.mp windows
    have strength : op.strength < notStrength ∨ op.strength = comparisonStrength ∨
        comparisonStrength < op.strength := by
      cases op <;> decide
    rcases strength with loose | comparison | tight
    · exact reading_loose (ihl l) (ihr r) loose
    · exact reading_comparison (ihl l) (ihr r) comparison
    · exact reading_tight (ihl l) (ihr r) tight
  | unary op operand ih =>
    have inner : ∀ before, Tested operand.chainsTests before before
        (wrapped operand.strength?.isSome operand.tokens) := by
      refine (ih (keepsTo_unary.mp windows)).wrapped ?_
      unfold atMost
      cases operand.strength? with
      | none => exact .inr rfl
      | some => exact .inl rfl
    cases op with
    | minus => exact reading_of_tight rfl fun before => (inner before).cons fun _ => rfl
    | not =>
      have neutral : ∀ outer, (Token.mark .not).tested? (false :: outer) = some (false :: outer) :=
        fun _ => rfl
      have tested := (inner false).space.cons neutral
      refine ⟨fun tight => ?_, ⟨false, tested⟩, fun is => ?_⟩
      · cases tight
      · cases is
  | function name args distinct ihs =>
    obtain ⟨-, each⟩ := keepsTo_function.mp windows
    have list := fresh_commaSeparated fun arg member => (ihs arg member (each arg member)).fresh
    refine reading_of_tight rfl fun before => ?_
    rw [chainsTests, chainsTestsEach_eq, tokens, tokensEach_eq]
    refine (Tested.parenthesized ?_).cons fun _ => rfl
    cases distinct with
    | false => exact list
    | true =>
      obtain ⟨after, tested⟩ := list
      exact ⟨after, tested.space.cons fun _ => rfl⟩
  | inList operand values negated ih ihs =>
    cases values with
    | nil => exact reading_of_tight rfl fun before => .single fun _ => rfl
    | cons value rest =>
      obtain ⟨inner, each⟩ := keepsTo_inList.mp windows
      have list := fresh_commaSeparated fun value member =>
        (ihs value member (each value member)).fresh
      have member : Tested false false true ((if negated then [.space, .mark .not] else []) ++
          [.space, .mark .member, .space]) := by
        intro outer
        cases negated <;> rfl
      have whole := (((ih inner).enclosed false).append member).append (.parenthesized list)
      have tested : Tested (inList operand (value :: rest) negated).chainsTests false true
          (inList operand (value :: rest) negated).tokens := by
        rw [Bool.or_false] at whole
        simpa [tokens, chainsTests, tokensEach_eq, chainsTestsEach_eq] using whole
      refine ⟨fun tight => ?_, ⟨true, tested⟩, fun _ => tested⟩
      cases tight
  | isNull operand negated ih =>
    have test : Tested false false true [.space, .mark (if negated then .isNotNull else .isNull)] :=
      fun outer => by cases negated <;> rfl
    have tested := (((ih (keepsTo_isNull.mp windows)).enclosed false).append test).congr
      (Bool.or_false _)
    refine ⟨fun tight => ?_, ⟨true, tested⟩, fun _ => tested⟩
    cases tight
  | star table => exact reading_of_tight rfl (tested_qualified table fun _ _ => rfl)
  | window call partitionBy orderBy ih ihp iho =>
    obtain ⟨name, args, distinct, rfl⟩ := KeepsTo.call windows
    obtain ⟨inner, parts, keys⟩ := keepsTo_window.mp windows
    have rows := fresh_overTokens (fun part member => ihp part member (parts part member))
      fun order member => iho order member (keys order member)
    refine reading_of_tight rfl fun before => ?_
    have marked : Tested false before before [.space, .mark .over, .space] := fun _ => rfl
    have whole := (((ih inner).tight rfl before).append marked).append (.parenthesized rows)
    rw [Bool.or_false] at whole
    simpa [tokens, chainsTests, tokensEach_eq, tokensKeys_eq, chainsTestsEach_eq,
      chainsTestsKeys_eq, Bool.or_assoc] using whole
  | interval count unit => exact reading_of_tight rfl fun before => fun _ => rfl
  | typed type text => exact reading_of_tight rfl fun before => fun _ => rfl

end Expr

/-! ## Statements -/

theorem tested_lineBreak (depth : Nat) (before : Bool) :
    Tested false before before (lineBreak depth) := by
  unfold lineBreak
  split <;> exact fun _ => rfl

theorem tested_optionalAlias (label : Option String) (before : Bool) :
    Tested false before before (optionalAlias label) := by
  cases label <;> exact fun _ => rfl

theorem apart_clause {keyword : Mark} {bad : Bool} {body : List Token} (depth : Nat)
    (separates : keyword.separates = true) (fresh : Fresh bad body) :
    Apart bad (clause depth keyword body) := by
  intro before
  obtain ⟨after, tested⟩ := fresh.introduced _ separates before
  exact ⟨after, (tested_lineBreak depth before).append tested⟩

theorem apart_conditionClause {keyword : Mark} (depth : Nat) (separates : keyword.separates = true)
    {condition : Option Expr} (windows : ∀ e ∈ condition.toList, e.CallsWindows) :
    Apart (condition.toList.any (·.chainsTests)) (conditionClause depth keyword condition) := by
  cases condition with
  | none => exact apart_nil
  | some e =>
    have fresh := (Expr.reading_tokens e (windows e (by simp))).fresh
    exact (apart_clause depth separates fresh).congr (by simp)

theorem apart_listClause {α : Type} {bad : α → Bool} {write : α → List Token} {items : List α}
    {keyword : Mark} (depth : Nat) (separates : keyword.separates = true)
    (each : ∀ item ∈ items, Fresh (bad item) (write item)) :
    Apart (items.any bad) (listClause depth keyword (items.map write)) := by
  cases items with
  | nil => exact apart_nil
  | cons => exact apart_clause depth separates (fresh_commaSeparated each)

theorem fresh_itemTokens (depth : Nat) {items : List SelectItem}
    (windows : ∀ item ∈ items, item.expr.CallsWindows) :
    Fresh (items.any (·.expr.chainsTests)) (Select.itemTokens depth items) := by
  have single : ∀ item ∈ items, Fresh item.expr.chainsTests
      (lineBreak (depth + 1) ++ item.tokens) := by
    intro item member
    obtain ⟨after, tested⟩ := (Expr.reading_tokens _ (windows item member)).fresh
    exact ⟨after, ((tested_lineBreak _ false).append
      (tested.append (tested_optionalAlias item.label after))).congr (by simp)⟩
  induction items with
  | nil => exact fresh_nil
  | cons item rest ih =>
    obtain ⟨head, tail⟩ := List.forall_mem_cons.mp single
    cases rest with
    | nil =>
      obtain ⟨after, tested⟩ := head
      exact ⟨after, tested.congr (by simp)⟩
    | cons next rest =>
      have others := ih (fun item member => windows item (List.mem_cons_of_mem _ member)) tail
      exact head.append (others.separated (m := .comma) rfl)

theorem apart_rowTokens (depth : Nat) (rows : RowWindow) :
    Apart false (Select.rowTokens depth rows) := by
  have count : ∀ (keyword : Mark), keyword.separates = true → ∀ n,
      Apart false (introduced keyword [countToken n]) := fun keyword separates n =>
    Fresh.introduced ⟨false, .single fun _ => rfl⟩ keyword separates
  have limit : Apart false rows.limitTokens := by
    unfold RowWindow.limitTokens
    split
    · exact apart_nil
    · exact count _ rfl _
  have offset : Apart false rows.offsetTokens := by
    unfold RowWindow.offsetTokens
    split
    · exact apart_nil
    · exact apart_nil
    · exact count _ rfl _
  have both : Apart false rows.tokens := by
    unfold RowWindow.tokens
    dsimp only
    split
    · exact limit.append offset
    · exact limit.append fun before => (offset before).imp fun _ => Tested.space
  unfold Select.rowTokens
  split
  · exact apart_nil
  · intro before
    obtain ⟨after, tested⟩ := both before
    exact ⟨after, (tested_lineBreak depth before).append tested⟩

theorem apart_headTokens (depth : Nat) {body : Select}
    (windows : ∀ e ∈ body.exprs, e.CallsWindows) :
    Apart (body.items.any (·.expr.chainsTests)) (body.headTokens depth) :=
  (fresh_itemTokens depth (forall_exprs.mp windows).1).separated (m := .select) rfl

theorem apart_tailTokens (depth : Nat) {body : Select}
    (windows : ∀ e ∈ body.exprs, e.CallsWindows) :
    Apart (body.filter.toList.any (·.chainsTests) || body.groupBy.any (·.chainsTests) ||
      body.having.toList.any (·.chainsTests) || body.orderBy.any (·.key.chainsTests))
      (body.tailTokens depth) := by
  obtain ⟨-, filter, groupBy, having_, orderBy⟩ := forall_exprs.mp windows
  have groups : Apart _ (listClause depth .groupBy (body.groupBy.map Expr.tokens)) :=
    apart_listClause depth rfl fun e member => (Expr.reading_tokens e (groupBy e member)).fresh
  have orders : Apart _ (listClause depth .orderBy (body.orderBy.map SortKey.tokens)) :=
    apart_listClause depth rfl fun order member =>
      Expr.fresh_sortKey order (Expr.reading_tokens order.key (orderBy order member))
  exact (((((apart_conditionClause depth rfl filter).append groups).append
    (apart_conditionClause depth rfl having_)).append orders).append
    (apart_rowTokens depth body.rows)).congr (Bool.or_false _)

theorem apart_tokensAt (query : Query) (windows : ∀ e ∈ query.exprs, e.CallsWindows) (depth : Nat) :
    Apart (query.exprs.any (·.chainsTests)) (query.tokensAt depth) := by
  induction query generalizing depth with
  | bare body =>
    exact ((apart_headTokens depth windows).append (apart_tailTokens depth windows)).congr
      (any_exprs (·.chainsTests) body).symm
  | ofTable body table label =>
    have named : Tested false false false (.name table :: optionalAlias label) :=
      (tested_optionalAlias label false).cons fun _ => rfl
    have source : Apart false (clause depth .source (.name table :: optionalAlias label)) :=
      apart_clause depth rfl ⟨false, named⟩
    refine (((apart_headTokens depth windows).append source).append
      (apart_tailTokens depth windows)).congr ?_
    rw [Bool.or_false]
    exact (any_exprs (·.chainsTests) body).symm
  | ofQuery body query label ih =>
    obtain ⟨outer, inner⟩ := List.forall_mem_append.mp windows
    have lines : Fresh (query.exprs.any (·.chainsTests))
        (lineBreak (depth + 1) ++ query.tokensAt (depth + 1) ++ lineBreak depth) := by
      obtain ⟨after, tested⟩ := ih inner (depth + 1) false
      exact ⟨after, (((tested_lineBreak _ false).append tested).append
        (tested_lineBreak depth after)).congr (by simp)⟩
    have source : Apart (query.exprs.any (·.chainsTests)) (clause depth .source
        (parenthesized (lineBreak (depth + 1) ++ query.tokensAt (depth + 1) ++ lineBreak depth) ++
          aliasTokens label)) := by
      refine apart_clause depth rfl ⟨false, ?_⟩
      exact ((Tested.parenthesized lines).append (tested_optionalAlias (some label) false)).congr
        (Bool.or_false _)
    refine (((apart_headTokens depth outer).append source).append
      (apart_tailTokens depth outer)).congr ?_
    rw [Query.exprs, List.any_append, any_exprs]
    simp only [Bool.or_assoc, Bool.or_comm, Bool.or_left_comm]

/-- In a statement tests stand in a row just where a comparison in it goes on from a test. -/
theorem chains_tokens (query : Query) (windows : ∀ e ∈ query.exprs, e.CallsWindows) :
    chains query.tokens = query.exprs.any (·.chainsTests) := by
  obtain ⟨after, tested⟩ := apart_tokensAt query windows 0 false
  rw [chains, Query.tokens, tested []]
  cases query.exprs.any (·.chainsTests) <;> rfl

end Rollup.Sql
