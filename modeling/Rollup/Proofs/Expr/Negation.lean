import Rollup.Proofs.Expr.Parser
import Rollup.Proofs.Expr.Token
import Rollup.Proofs.Expr.Traversal

/-! Signs in front of numbers.

A number in a text has no sign, so an integer in it is a word whose negation is a word as well, and
this is kept however often it is negated. The one word without a negation is never read: its digits
leave the range of integers and are read as a floating-point number.
-/

set_option autoImplicit false

namespace Rollup

/-! ## Integers in a text -/

def Token.IsUnsigned (token : Token) : Prop :=
  ∀ n, token = .literal (.int n) → 0 ≤ n ∧ n ≤ Number.maxWord

namespace Token

theorem IsPlain.isUnsigned {token : Token} (plain : token.IsPlain) : token.IsUnsigned := by
  rintro n rfl
  exact plain

theorem ne_int_of_readMeasure {text : String} {value : Literal} (ok : readMeasure text = .ok value)
    (n : Int) : value ≠ .int n := by
  unfold readMeasure at ok
  split at ok <;>
  · obtain ⟨_, -, rfl⟩ := map_eq_ok.mp ok
    exact nofun

theorem isUnsigned_of_ofLexeme {lexeme : Located Lexeme} {token : Located Token}
    (scanned : lexeme.value.IsScanned) (ok : ofLexeme lexeme = .ok token) :
    token.value.IsUnsigned := by
  obtain ⟨start, stop, value⟩ := lexeme
  cases value with
  | word text =>
    cases ok
    exact (isPlain_ofWord scanned).isUnsigned
  | number text =>
    obtain ⟨read, found, rfl⟩ := map_eq_ok.mp ok
    exact (isPlain_of_ofNumber scanned found).isUnsigned
  | measure text =>
    obtain ⟨read, found, rfl⟩ := map_eq_ok.mp ok
    unfold ofMeasure at found
    split at found
    · rename_i value measured
      cases found
      intro n same
      exact absurd (Token.literal.inj same) (ne_int_of_readMeasure measured n)
    · cases found
  | quotedName | string | placeholder | symbol =>
    cases ok
    exact nofun

theorem isUnsigned_of_all {text : List Char} {located : List (Located Token)}
    (ok : all text = .ok located) : ∀ token ∈ located.map (·.value), token.IsUnsigned := by
  rw [List.forall_mem_map]
  intro token member
  obtain ⟨lexemes, cut, read⟩ := bind_eq_ok.mp ok
  obtain ⟨lexeme, listed, is⟩ := related_of_mem_right (mapM_eq_ok.mp read) member
  exact isUnsigned_of_ofLexeme (Lexeme.isScanned_of_allFrom cut lexeme listed) is

end Token

namespace Expr

/-! ## Folded signs -/

/-- A node with its sign folded: an integer has a negation, and no sign stands in front of a
number. -/
def IsFolded : Expr → Prop
  | .literal (.int n) => -Number.maxWord ≤ n ∧ n ≤ Number.maxWord
  | .unary .neg operand => negate operand = .unary .neg operand
  | _ => True

def FoldsSigns (e : Expr) : Prop := ∀ node ∈ e.nodes, node.IsFolded

section
variable {e left right operand : Expr} {items args : List Expr}

theorem FoldsSigns.binary (op : BinaryOp) (first : FoldsSigns left) (second : FoldsSigns right) :
    FoldsSigns (.binary op left right) := by
  intro node member
  rcases mem_nodes_binary.mp member with rfl | member | member
  · trivial
  · exact first node member
  · exact second node member

theorem FoldsSigns.unary {op : UnaryOp} (inner : FoldsSigns operand)
    (folded : (Expr.unary op operand).IsFolded) : FoldsSigns (.unary op operand) := by
  intro node member
  rcases mem_nodes_unary.mp member with rfl | member
  · exact folded
  · exact inner node member

theorem FoldsSigns.inList (negated : Bool) (inner : FoldsSigns operand)
    (each : ∀ item ∈ items, FoldsSigns item) : FoldsSigns (.inList operand items negated) := by
  intro node member
  rcases mem_nodes_inList.mp member with rfl | member | ⟨item, listed, member⟩
  · trivial
  · exact inner node member
  · exact each item listed node member

theorem FoldsSigns.call (name : String) (each : ∀ arg ∈ args, FoldsSigns arg) :
    FoldsSigns (.call name args) := by
  intro node member
  rcases mem_nodes_call.mp member with rfl | ⟨arg, listed, member⟩
  · trivial
  · exact each arg listed node member

theorem FoldsSigns.negate (folds : FoldsSigns e) : FoldsSigns (negate e) := by
  have self := folds e (self_mem_nodes e)
  unfold Expr.negate
  split
  · rename_i n
    intro node member
    obtain rfl := mem_nodes_literal.mp member
    have bounds : -Number.maxWord ≤ n ∧ n ≤ Number.maxWord := self
    exact ⟨Int.neg_le_neg bounds.2, Int.neg_le_of_neg_le bounds.1⟩
  · intro node member
    obtain rfl := mem_nodes_literal.mp member
    trivial
  · rename_i other float
    refine folds.unary ?_
    show Expr.negate e = _
    unfold Expr.negate
    split
    · exact absurd rfl (other _)
    · exact absurd rfl (float _)
    · rfl

end

theorem Derives.foldsSigns {category : Category} {tokens : List Token} {e : Expr}
    (derives : Derives category tokens e) (unsigned : ∀ token ∈ tokens, token.IsUnsigned) :
    FoldsSigns e := by
  induction derives with
  | literal value =>
    intro node member
    obtain rfl := mem_nodes_literal.mp member
    have bounds := unsigned _ List.mem_cons_self
    cases value with
    | int n =>
      have least : -Number.maxWord ≤ 0 := by decide
      obtain ⟨nonneg, fits⟩ := bounds n rfl
      exact ⟨Int.le_trans least nonneg, fits⟩
    | _ => trivial
  | placeholder name =>
    intro node member
    obtain rfl := mem_nodes_placeholder.mp member
    trivial
  | column name =>
    intro node member
    obtain rfl := mem_nodes_column.mp member
    trivial
  | call name nonempty each ih =>
    refine .call name (forall_items ih fun token member => ?_)
    exact unsigned token (by simp [enclosed, member])
  | callNothing name | callStar name => exact .call name (by simp)
  | parentheses inner ih =>
    exact ih fun token member => unsigned token (by simp [enclosed, member])
  | unsigned inner ih | operand inner ih | sum inner ih | positive inner ih => exact ih unsigned
  | negative inner ih => exact (ih fun token member => unsigned token (by simp [member])).negate
  | binary allowed first second ihl ihr | compare allowed first second ihl ihr =>
    exact .binary _ (ihl fun token member => unsigned token (by simp [member]))
      (ihr fun token member => unsigned token (by simp [member]))
  | member negated first nonempty each ihl ih =>
    have items := forall_items ih fun token member =>
      unsigned token (by simp [enclosed, member])
    exact .inList negated (ihl fun token member => unsigned token (by simp [member])) items
  | null negated first ih =>
    refine .binary _ (ih fun token member => unsigned token (by simp [member])) ?_
    intro node member
    obtain rfl := mem_nodes_literal.mp member
    trivial
  | not inner ih =>
    exact (ih fun token member => unsigned token (by simp [member])).unary trivial

/-! ## Negating -/

theorem negates_of_minus {expr : Reader Token Expr} {rest behind : List Token} {value : Expr}
    (read : (readSigned expr).reads (.symbol .minus :: rest) = some (value, behind)) :
    ∃ operand, (readSigned expr).reads rest = some (operand, behind) ∧
      value = negate operand := by
  rw [readSigned, Reader.reads_foldr_cons] at read
  obtain ⟨⟨operand, left⟩, found, same⟩ := Option.map_eq_some_iff.mp read
  obtain ⟨rfl, rfl⟩ := Prod.mk.inj same
  exact ⟨operand, found, rfl⟩

theorem foldsSigns_of_readSigned {depth : Nat} {tokens behind : List Token} {operand : Expr}
    (unsigned : ∀ token ∈ tokens, token.IsUnsigned)
    (read : (readSigned (readWithin depth)).reads tokens = some (operand, behind)) :
    FoldsSigns operand := by
  obtain ⟨taken, rfl, derives⟩ := sound_signed (sound_readWithin depth) _ _ _ read
  exact derives.foldsSigns fun token member =>
    unsigned token (List.mem_append_left behind member)

theorem fitsWord_neg {n : Int} (low : -Number.maxWord ≤ n) (high : n ≤ Number.maxWord) :
    Number.fitsWord n = true ∧ Number.fitsWord (-n) = true := by
  have least : Number.minWord ≤ -Number.maxWord := by decide
  rw [Number.fitsWord_iff, Number.fitsWord_iff]
  omega

/-- Wherever a sign among the tokens is read, also on an attempt that the reader comes back from,
what is read behind it is negated once; and an integer there is a word, and so is its negation. -/
def NegatesWords (tokens : List Token) : Prop :=
  ∀ depth before rest value behind, tokens = before ++ .symbol .minus :: rest →
    (readSigned (readWithin depth)).reads (.symbol .minus :: rest) = some (value, behind) →
    ∃ operand, (readSigned (readWithin depth)).reads rest = some (operand, behind) ∧
      value = negate operand ∧
      ∀ n, operand = .literal (.int n) → Number.fitsWord n = true ∧ Number.fitsWord (-n) = true

theorem negatesWords {tokens : List Token} (unsigned : ∀ token ∈ tokens, token.IsUnsigned) :
    NegatesWords tokens := by
  rintro depth before rest value behind rfl signed
  obtain ⟨operand, found, rfl⟩ := negates_of_minus signed
  refine ⟨operand, found, rfl, ?_⟩
  rintro n rfl
  have within : ∀ token ∈ rest, token.IsUnsigned := fun token member =>
    unsigned token (List.mem_append_right before (List.mem_cons_of_mem _ member))
  have bounds := foldsSigns_of_readSigned within found _ (self_mem_nodes _)
  exact fitsWord_neg bounds.1 bounds.2

/-- In the tree of a text that is read, every integer has a negation that is a word, and no sign
stands in front of a number. No negation in the text, however many signs and parentheses stand
inside one another, leaves the range of words. -/
theorem negations_fit {text : String} {e : Expr} (accepted : parse text = .ok e) :
    (∀ n, .literal (.int n) ∈ e.nodes → -Number.maxWord ≤ n ∧ n ≤ Number.maxWord) ∧
    (∀ operand, .unary .neg operand ∈ e.nodes →
      (∀ n, operand ≠ .literal (.int n)) ∧ ∀ x, operand ≠ .literal (.float x)) ∧
    ∃ located, Token.all text.toList = .ok located ∧ NegatesWords (located.map (·.value)) := by
  obtain ⟨located, lexed, read⟩ := parse_eq_ok.mp accepted
  have unsigned := Token.isUnsigned_of_all lexed
  have folds := (derives_of_ofTokens read).foldsSigns unsigned
  refine ⟨fun n member => folds _ member, fun operand member => ?_, located, lexed,
    negatesWords unsigned⟩
  have folded : negate operand = .unary .neg operand := folds _ member
  refine ⟨?_, ?_⟩ <;>
  · rintro _ rfl
    cases folded

/-- Three signs make a negative number of the greatest word, which has a negation. -/
theorem negations_fit_greatest :
    parse "--(-9223372036854775807)" = .ok (.literal (.int (-Number.maxWord))) ∧
      -Number.maxWord ≤ -Number.maxWord ∧ -Number.maxWord ≤ Number.maxWord ∧
      ∃ located, Token.all "--(-9223372036854775807)".toList = .ok located ∧
        NegatesWords (located.map (·.value)) := by
  have lexed : Token.all "--(-9223372036854775807)".toList = .ok [⟨0, 1, .symbol .minus⟩,
      ⟨1, 2, .symbol .minus⟩, ⟨2, 3, .symbol .leftParen⟩, ⟨3, 4, .symbol .minus⟩,
      ⟨4, 23, .literal (.int Number.maxWord)⟩, ⟨23, 24, .symbol .rightParen⟩] := rfl
  have accepted : parse "--(-9223372036854775807)" = .ok (.literal (.int (-Number.maxWord))) :=
    parse_eq_ok.mpr ⟨_, lexed, by cbv⟩
  obtain ⟨bounds, -, negations⟩ := negations_fit accepted
  have range := bounds _ (self_mem_nodes _)
  exact ⟨accepted, range.1, range.2, negations⟩

end Expr

end Rollup
