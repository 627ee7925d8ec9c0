import Rollup.Expr.Printer
import Rollup.Proofs.Expr.Parser
import Rollup.Proofs.Expr.Token
import Rollup.Proofs.Expr.Traversal

/-! The tokens of an expression that is printed.

A printed expression is cut into the tokens of its parts, each of which ends where a blank, a comma
or a closing parenthesis stands. A negative number is written as two tokens, a sign and a number, as
it is in every text that is read.
-/

set_option autoImplicit false

namespace Rollup

/-! ## Numbers -/

namespace Number
variable {text : List Char}

theorem mem_withPoint (layout : Layout) (pointed : layout.pointed = true) (digits : List Char)
    (exponent : Int) : '.' ∈ layout.withPoint digits exponent := by
  unfold Layout.withPoint
  dsimp only
  split
  · simp
  · split <;> simp

theorem exists_not_digit (layout : Layout) (pointed : layout.pointed = true)
    (code : Fin Binary64.codes) :
    ∃ c ∈ (layout.write (.finite false code)).toList, isDigit c = false := by
  rw [Layout.write, String.toList_ofList, sign, if_neg Bool.false_ne_true, if_pos pointed]
  split
  · exact ⟨'.', by decide, rfl⟩
  · unfold Layout.magnitude
    dsimp only
    split
    · exact ⟨'.', mem_withPoint layout pointed _ _, rfl⟩
    · exact ⟨'e', List.mem_append_right _ List.mem_cons_self, rfl⟩

theorem readWord?_eq_none {c : Char} {tail : List Char} (digit : isDigit c = true)
    (other : ∃ d ∈ c :: tail, isDigit d = false) : readWord? (c :: tail) = none := by
  have none_ : readNat? (c :: tail) = none := by
    obtain ⟨d, member, apart⟩ := other
    refine if_pos (Bool.or_eq_true_iff.mpr (.inr ?_))
    rw [Bool.not_eq_true', List.all_eq_false]
    exact ⟨d, member, by simp [apart]⟩
  have unsigned : readInt? (c :: tail) = (readNat? (c :: tail)).map fun n => (n : Int) := by
    unfold readInt?
    split
    · rename_i same
      cases same
      cases digit
    · rename_i same
      cases same
      cases digit
    · rfl
  rw [readWord?, unsigned, none_]
  rfl

end Number

/-! ## Literals -/

namespace Literal

def written : Literal → List Token
  | .int (.negSucc n) => [.symbol .minus, .literal (.int (n + 1))]
  | .float (.finite true code) => [.symbol .minus, .literal (.float (.finite false code))]
  | value => [.literal value]

/-- A literal of an expression that is read: as in a text, except that a sign in front of a number
belongs to it. -/
def IsSigned : Literal → Prop
  | .int n => -Number.maxWord ≤ n ∧ n ≤ Number.maxWord
  | .float x => x.isFinite = true
  | value => value.IsPlain

def ReadsBack : Literal → Prop
  | .float (.finite _ code) => Number.readBinary64?
      (Number.Layout.literal.write (.finite false code)).toList = some (.finite false code)
  | .percentage ⟨.finite _ code⟩ => Number.readBinary64?
      (Number.Layout.plain.write (.finite false code)).toList = some (.finite false code)
  | _ => True

end Literal

/-! ## Tokens one behind the other -/

namespace Token

open Lexeme (Closes IsWord IsPlaceholder scan)

variable {rest : List Char} {tokens : List Token}

theorem Reads.symbol {c : Char} (tail : List Char) {value : Symbol}
    (shown : Text.isBlank c = false)
    (scanned : scan (c :: (tail ++ rest)) = .ok ⟨.symbol value, c :: tail, rest⟩)
    (reads : Reads rest tokens) : Reads (c :: (tail ++ rest)) (.symbol value :: tokens) := by
  have visible : ∀ d, (c :: tail).head? = some d → Text.isBlank d = false := fun d first =>
    Option.some.inj first ▸ shown
  exact reads.lexeme scanned visible (List.cons_ne_nil _ _) fun _ _ => rfl

theorem Reads.leftParen (reads : Reads rest tokens) :
    Reads ('(' :: rest) (.symbol .leftParen :: tokens) := reads.symbol [] rfl rfl

theorem Reads.rightParen (reads : Reads rest tokens) :
    Reads (')' :: rest) (.symbol .rightParen :: tokens) := reads.symbol [] rfl rfl

theorem Reads.comma (reads : Reads rest tokens) :
    Reads (',' :: rest) (.symbol .comma :: tokens) := reads.symbol [] rfl rfl

theorem Reads.minus (reads : Reads rest tokens) :
    Reads ('-' :: rest) (.symbol .minus :: tokens) := reads.symbol [] rfl rfl

theorem Reads.word {word : List Char} (is : IsWord word) (stops : Stops Lexeme.continuesWord rest)
    (reads : Reads rest tokens) : Reads (word ++ rest) (ofWord (String.ofList word) :: tokens) := by
  obtain ⟨c, first, starts⟩ := is.first
  refine reads.lexeme (Lexeme.scan_word is stops) ?_ ?_ fun _ _ => rfl
  · intro d also
    obtain rfl := Option.some.inj (also.symm.trans first)
    exact Lexeme.isBlank_of_startsWord starts
  · rintro rfl
    cases first

theorem Reads.keyword (word : String) (token : Token) (is : IsWord word.toList)
    (same : ofWord word = token) (reads : Reads rest tokens) :
    Reads (word.toList ++ ' ' :: rest) (token :: tokens) := by
  have read := reads.blank.word is (stops_cons rfl)
  rwa [String.ofList_toList, same] at read

theorem Reads.operator (op : BinaryOp) (reads : Reads rest tokens) :
    Reads (op.symbol.toList ++ ' ' :: rest) (op.spelling ++ tokens) := by
  cases op with
  | and => exact reads.keyword "and" .and (by decide) rfl
  | or => exact reads.keyword "or" .or (by decide) rfl
  | like => exact reads.keyword "like" .like (by decide) rfl
  | notLike =>
    have like := reads.keyword "like" .like (by decide) rfl
    exact like.keyword "not" .not (by decide) rfl
  | ne | lte | gte => exact reads.blank.symbol ['='] rfl rfl
  | _ => exact reads.blank.symbol [] rfl rfl

/-! ## Texts -/

/-- A text has its tokens in front of whatever ends it. -/
def Renders (text : List Char) (tokens : List Token) : Prop :=
  ∀ rest behind, Closes rest → Reads rest behind → Reads (text ++ rest) (tokens ++ behind)

variable {text : List Char}

theorem Renders.reads (renders : Renders text tokens) : Reads text tokens := by
  simpa using renders [] [] Lexeme.closes_nil reads_nil

theorem renders_word (is : IsWord text) : Renders text [ofWord (String.ofList text)] :=
  fun _ _ closes reads => reads.word is (closes.stops rfl rfl rfl)

theorem renders_numeral {token : Token} (numeral : Number.IsNumeral text)
    (read : ∀ position, ofNumber (String.ofList text) position = .ok token) :
    Renders text [token] := by
  intro rest behind closes reads
  obtain ⟨c, tail, rfl, digit⟩ := numeral.head
  refine reads.lexeme (Lexeme.scan_numeral numeral closes) ?_ (List.cons_ne_nil _ _) ?_
  · intro d first
    obtain rfl := Option.some.inj first
    exact Number.isBlank_of_isDigit digit
  · intro start stop
    show ((ofNumber (String.ofList (c :: tail)) start).map _).map _ = _
    rw [read]
    rfl

theorem renders_minus {token : Token} (renders : Renders text [token]) :
    Renders ('-' :: text) [.symbol .minus, token] :=
  fun rest behind closes reads => (renders rest behind closes reads).minus

end Token

/-! ## Literals that are written -/

namespace Literal

open Lexeme (Closes)
open Token (Renders)

theorem renders_natural (n : Nat) (fits : (n : Int) ≤ Number.maxWord) :
    Renders (Nat.toDigits 10 n) [.literal (.int n)] := by
  refine Token.renders_numeral (Number.isDigits_toDigits n).isNumeral fun position => ?_
  have read : Number.readWord? (Nat.toDigits 10 n) = some (n : Int) := by
    have whole : Number.readInt? (Nat.toDigits 10 n) = some (n : Int) := by
      rw [← Number.toList_repr]
      exact Number.readInt?_toString n
    have within : Number.minWord ≤ (n : Int) := Int.le_trans (by decide) (Int.natCast_nonneg n)
    rw [Number.readWord?, whole, Option.filter_some, if_pos]
    exact (Number.fitsWord_iff n).mpr ⟨within, fits⟩
  rw [Token.ofNumber, String.toList_ofList, read]

theorem renders_float {code : Fin Binary64.codes}
    (back : (Literal.float (.finite false code)).ReadsBack) :
    Renders (Number.Layout.literal.write (.finite false code)).toList
      [.literal (.float (.finite false code))] := by
  have numeral := Number.isNumeral_write .literal code
  refine Token.renders_numeral numeral fun position => ?_
  have other := Number.exists_not_digit .literal rfl code
  have none_ : Number.readWord? (Number.Layout.literal.write (.finite false code)).toList =
      none := by
    obtain ⟨c, tail, same, digit⟩ := numeral.head
    rw [same] at other ⊢
    exact Number.readWord?_eq_none digit other
  rw [Token.ofNumber, String.toList_ofList, none_]
  dsimp only
  rw [show _ = _ from back]
  rfl

theorem renders_measure {number : List Char} {unit : Char} {value : Literal}
    (numeral : Number.IsNumeral number)
    (scanned : ∀ rest, Closes rest → Lexeme.scan (number ++ unit :: rest) =
      .ok ⟨.measure (String.ofList (number ++ [unit])), number ++ [unit], rest⟩)
    (read : Token.readMeasure (String.ofList (number ++ [unit])) = .ok value) :
    Renders (number ++ [unit]) [.literal value] := by
  intro rest behind closes reads
  have whole : Lexeme.scan ((number ++ [unit]) ++ rest) =
      .ok ⟨.measure (String.ofList (number ++ [unit])), number ++ [unit], rest⟩ := by
    rw [List.append_assoc]
    exact scanned rest closes
  obtain ⟨c, tail, rfl, digit⟩ := numeral.head
  refine reads.lexeme whole ?_ (List.cons_ne_nil _ _) ?_
  · intro d first
    obtain rfl := Option.some.inj first
    exact Number.isBlank_of_isDigit digit
  · intro start stop
    show ((Token.ofMeasure _ start).map _).map _ = _
    rw [Token.ofMeasure, read]
    rfl

theorem renders_percentage {code : Fin Binary64.codes}
    (back : (Literal.percentage ⟨.finite false code⟩).ReadsBack) :
    Renders (Percentage.render ⟨.finite false code⟩).toList
      [.literal (.percentage ⟨.finite false code⟩)] := by
  have numeral := Number.isNumeral_write .plain code
  have trimmed := Text.trim_of_visible numeral.visible
  rw [Percentage.render, String.toList_append]
  refine renders_measure numeral (fun rest _ => Lexeme.scan_percentage numeral) ?_
  rw [Token.readMeasure, String.toList_ofList, List.getLast?_concat, Percentage.parse,
    String.toList_ofList, Percentage.ofChars, List.getLast?_concat]
  dsimp only
  rw [List.dropLast_concat, Percentage.ofNumber, trimmed, show _ = _ from back]
  rfl

theorem renders_duration {d : Duration} (counted : d.IsCounted) (positive : 0 ≤ d.seconds) :
    Renders d.render.toList [.literal (.duration d)] := by
  have parsed := Duration.parse_render counted
  obtain ⟨n, count⟩ := Int.eq_ofNat_of_zero_le
    (Int.tdiv_nonneg positive (show 0 ≤ d.unit.scale by cases d.unit <;> decide))
  have text : d.render.toList = Nat.toDigits 10 n ++ [d.unit.suffix] := by
    rw [Duration.toList_render, count, ← Number.toList_repr]
    rfl
  have digits := Number.isDigits_toDigits n
  rw [← String.ofList_toList (s := d.render), text] at parsed
  rw [text]
  refine renders_measure digits.isNumeral (fun rest => Lexeme.scan_duration digits d.unit) ?_
  rw [Token.readMeasure, String.toList_ofList, List.getLast?_concat]
  cases is : d.unit <;> rw [is] at parsed <;>
    exact congrArg (Except.map Literal.duration) parsed

theorem renders_string (text : String) :
    Renders (Text.quote '\'' text).toList [.literal (.string text)] := by
  intro rest behind closes reads
  have stops := closes.stops (p := (· == '\'')) rfl rfl rfl
  have scanned := Lexeme.scan_quoted (fun _ => rfl) text.toList stops
  rw [String.ofList_toList] at scanned
  rw [Text.quote, String.toList_ofList]
  refine reads.lexeme scanned ?_ (List.cons_ne_nil _ _) fun _ _ => rfl
  intro d first
  obtain rfl := Option.some.inj first
  rfl

theorem renders_render {value : Literal} (signed : value.IsSigned) (back : value.ReadsBack) :
    Renders value.render.toList value.written := by
  cases value with
  | int n =>
    cases n with
    | ofNat n =>
      rw [render, show toString (Int.ofNat n) = Nat.repr n from rfl, Number.toList_repr]
      exact renders_natural n signed.2
    | negSucc n =>
      rw [render, Number.toList_toString_negSucc]
      refine Token.renders_minus (renders_natural (n + 1) ?_)
      have least := signed.1
      omega
  | float x =>
    cases x with
    | nan => cases signed
    | infinity _ => cases signed
    | finite negative code =>
      cases negative with
      | false => exact renders_float back
      | true =>
        rw [render, Number.write_negative]
        exact Token.renders_minus (renders_float back)
  | string text => exact renders_string text
  | bool value =>
    cases value with
    | true => exact Token.renders_word (by decide)
    | false => exact Token.renders_word (by decide)
  | null => exact Token.renders_word (by decide)
  | duration d => exact renders_duration signed.1 signed.2
  | size s => exact signed.elim
  | percentage p =>
    obtain ⟨percent⟩ := p
    obtain ⟨code, rfl⟩ := signed
    exact renders_percentage back

end Literal

/-! ## Expressions that are written -/

namespace Expr

open Lexeme (Closes)
open Token (Reads Renders)

def grouped (parens : Bool) (tokens : List Token) : List Token :=
  if parens then enclosed tokens else tokens

mutual

def written : Expr → List Token
  | .literal value => value.written
  | .column name => [.name name]
  | .placeholder name => [.placeholder name]
  | .binary op left right =>
    grouped (left.needsParens op.strength false) (written left) ++ op.spelling ++
      grouped (right.needsParens op.strength true) (written right)
  | .unary .not operand => .not :: grouped (operand.needsParens notStrength false) (written operand)
  | .unary .neg operand =>
    .symbol .minus :: grouped (operand.needsParens signStrength false) (written operand)
  | .inList operand items negated =>
    grouped (operand.needsParens comparisonStrength false) (written operand) ++ negation negated ++
      .member :: enclosed (commas (writtenItems items))
  | .call name args => .name name :: enclosed (commas (writtenItems args))

def writtenItems : List Expr → List (List Token × Expr)
  | [] => []
  | item :: rest => (written item, item) :: writtenItems rest

end

theorem writtenItems_eq (items : List Expr) :
    writtenItems items = items.map fun item => (item.written, item) := by
  induction items with
  | nil => rfl
  | cons item rest ih => rw [writtenItems, ih, List.map_cons]

theorem renderItems_eq (items : List Expr) : renderItems items = items.map render := by
  induction items with
  | nil => rfl
  | cons item rest ih => rw [renderItems, ih, List.map_cons]

/-- An expression that a text without quoted names and sizes can have: a sign in front of a number
is part of the number, and no list is empty. -/
inductive Printable : Expr → Prop
  | literal {value : Literal} (signed : value.IsSigned) : Printable (.literal value)
  | column {name : String} (plain : (Token.name name).IsPlain) : Printable (.column name)
  | placeholder {name : String} (plain : (Token.placeholder name).IsPlain) :
      Printable (.placeholder name)
  | binary (op : BinaryOp) {left right : Expr} (first : Printable left)
      (second : Printable right) : Printable (.binary op left right)
  | not {operand : Expr} (inner : Printable operand) : Printable (.unary .not operand)
  | neg {operand : Expr} (inner : Printable operand)
      (apart : negate operand = .unary .neg operand) : Printable (.unary .neg operand)
  | inList {operand : Expr} {items : List Expr} (negated : Bool) (inner : Printable operand)
      (nonempty : items ≠ []) (each : ∀ item ∈ items, Printable item) :
      Printable (.inList operand items negated)
  | call {name : String} {args : List Expr} (plain : (Token.name name).IsPlain)
      (each : ∀ arg ∈ args, Printable arg) : Printable (.call name args)

def ReadsBack (e : Expr) : Prop := ∀ value, .literal value ∈ e.nodes → value.ReadsBack

section
variable {e left right operand : Expr} {items : List Expr} {rest : List Char}
  {tokens behind : List Token}

theorem renders_parenthesized (parens : Bool) (renders : Renders e.render.toList e.written) :
    Renders (parenthesized parens e.render).toList (grouped parens e.written) := by
  cases parens with
  | false => exact renders
  | true =>
    intro rest behind _ reads
    have inner := renders (')' :: rest) (.symbol .rightParen :: behind) (Lexeme.closes_cons rfl)
      reads.rightParen
    simpa [parenthesized, grouped, enclosed] using inner.leftParen

theorem reads_commas (each : ∀ item ∈ items, Renders item.render.toList item.written)
    (reads : Reads rest behind) :
    Reads ((", ".intercalate (renderItems items)).toList ++ ')' :: rest)
      (commas (writtenItems items) ++ .symbol .rightParen :: behind) := by
  rw [String.toList_intercalate, renderItems_eq, writtenItems_eq, commas, Reader.listed]
  simp only [List.map_map, Function.comp_def]
  have closing := reads.rightParen
  induction items with
  | nil => exact closing
  | cons item items ih =>
    have first := each item List.mem_cons_self
    cases items with
    | nil => simpa using first _ _ (Lexeme.closes_cons rfl) closing
    | cons next items =>
      have others := ih fun item member => each item (List.mem_cons_of_mem _ member)
      have more := first _ _ (Lexeme.closes_cons rfl) others.blank.comma
      simpa [List.intercalate_cons_cons] using more

theorem reads_enclosed (each : ∀ item ∈ items, Renders item.render.toList item.written)
    (reads : Reads rest behind) :
    Reads ('(' :: ((", ".intercalate (renderItems items)).toList ++ ')' :: rest))
      (enclosed (commas (writtenItems items)) ++ behind) := by
  simpa [enclosed] using (reads_commas each reads).leftParen

theorem ReadsBack.part {part : Expr} (back : e.ReadsBack) (member : part ∈ e.nodes) :
    part.ReadsBack :=
  fun value within => back value (nodes_subset member within)

theorem Printable.renders (printable : Printable e) (back : e.ReadsBack) :
    Renders e.render.toList e.written := by
  induction printable with
  | literal signed => exact Literal.renders_render signed (back _ (by simp))
  | column plain =>
    have renders := Token.renders_word plain.1
    rwa [String.ofList_toList, plain.2] at renders
  | @placeholder name plain =>
    intro rest behind closes reads
    have scanned : Lexeme.scan (('\x7b' :: (name.toList ++ ['\x7d'])) ++ rest) =
        .ok ⟨.placeholder name, '\x7b' :: (name.toList ++ ['\x7d']), rest⟩ := by
      simpa using Lexeme.scan_placeholder plain
    have read := reads.lexeme scanned (by rintro _ ⟨⟩; rfl)
      (List.cons_ne_nil _ _) fun _ _ => rfl
    simpa [render, written] using read
  | @binary op left right first second ihl ihr =>
    have first := renders_parenthesized (left.needsParens op.strength false)
      (ihl (back.part (by simp)))
    have second := renders_parenthesized (right.needsParens op.strength true)
      (ihr (back.part (by simp)))
    intro rest behind closes reads
    have behind := ((second rest behind closes reads).operator op).blank
    simpa [render, written] using first _ _ (Lexeme.closes_cons rfl) behind
  | @not operand inner ih =>
    have renders := renders_parenthesized (operand.needsParens notStrength false)
      (ih (back.part (by simp)))
    intro rest behind closes reads
    have read := (renders rest behind closes reads).keyword "not" .not (by decide) rfl
    simpa [render, written] using read
  | @neg operand inner apart ih =>
    have renders := renders_parenthesized (operand.needsParens signStrength false)
      (ih (back.part (by simp)))
    intro rest behind closes reads
    simpa [render, written] using (renders rest behind closes reads).minus
  | @inList operand items negated inner nonempty each ih ihs =>
    have renders := renders_parenthesized (operand.needsParens comparisonStrength false)
      (ih (back.part (by simp)))
    have each := fun item member => ihs item member
      (back.part (mem_nodes_inList.mpr (.inr (.inr ⟨item, member, self_mem_nodes item⟩))))
    intro rest behind closes reads
    have member := (reads_enclosed each reads).keyword "in" .member (by decide) rfl
    cases negated with
    | false =>
      simpa [render, written, negation] using renders _ _ (Lexeme.closes_cons rfl) member.blank
    | true =>
      have negated := member.keyword "not" .not (by decide) rfl
      simpa [render, written, negation] using renders _ _ (Lexeme.closes_cons rfl) negated.blank
  | @call name args plain each ih =>
    have each := fun arg member => ih arg member
      (back.part (mem_nodes_call.mpr (.inr ⟨arg, member, self_mem_nodes arg⟩)))
    intro rest behind closes reads
    have read := (reads_enclosed each reads).word plain.1 (Rollup.stops_cons rfl)
    rw [String.ofList_toList, plain.2] at read
    simpa [render, written] using read

theorem parse_render (printable : Printable e) (back : e.ReadsBack) {read : Expr} :
    parse e.render = .ok read ↔ Derives (.chain .or) e.written read := by
  obtain ⟨located, found, same⟩ := (printable.renders back).reads.all
  rw [parse_eq_ok, found]
  constructor
  · rintro ⟨_, is, accepted⟩
    rw [← Except.ok.inj is, same] at accepted
    exact derives_of_ofTokens accepted
  · exact fun derives => ⟨located, rfl, same ▸ derives.ofTokens⟩

end

end Expr

end Rollup
