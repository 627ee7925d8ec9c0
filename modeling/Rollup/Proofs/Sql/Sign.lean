import Rollup.Proofs.Computation
import Rollup.Proofs.Sql.Grammar
import Rollup.Proofs.Sql.Zero
import Rollup.Sql.Spelling

/-! Zeros in the texts of expressions.

Expressions that are the same but for the signs of zeros are written with the same tokens but for
these signs. The texts of such expressions first differ where one has a minus in front of a zero and
the other has not, so they are equal just if the signs are.
-/

set_option autoImplicit false

namespace Rollup

theorem Binary64.codes_pos : 0 < codes := by decide

def Binary64.signedZero (negative : Bool) : Binary64 := .finite negative ⟨0, codes_pos⟩

/-- Whether a zero is negative, if a number is a zero. -/
def Binary64.zeroSign? : Binary64 → Option Bool
  | .finite negative code => if code.val = 0 then some negative else none
  | _ => none

theorem Binary64.eq_or_signedZero {x y : Binary64} (same : x.unsignZero = y.unsignZero) :
    x = y ∨ ∃ negative, x = signedZero negative ∧ y = signedZero !negative := by
  cases x with
  | nan => cases y <;> simp_all [unsignZero]
  | infinity negative => cases y <;> simp_all [unsignZero]
  | finite negative code =>
    cases y with
    | nan => cases same
    | infinity negative' => cases same
    | finite negative' code' =>
      simp only [unsignZero, finite.injEq] at same
      obtain ⟨sign, rfl⟩ := same
      by_cases zero : code.val = 0
      · obtain rfl : code = ⟨0, by decide⟩ := Fin.ext zero
        cases negative <;> cases negative' <;> simp [signedZero]
      · have nonzero : (code.val != 0) = true := by simpa using zero
        rw [nonzero, Bool.and_true, Bool.and_true] at sign
        exact .inl (by rw [sign])

namespace Sql

namespace Token

def unsignZero : Token → Token
  | .float x => .float x.unsignZero
  | token => token

def zeroSign? : Token → Option Bool
  | .float x => x.zeroSign?
  | _ => none

/-- Tokens that are the same but for the signs of zeros. -/
def Alike (x y : Token) : Prop := x.unsignZero = y.unsignZero

theorem Alike.eq_or_zero {x y : Token} (alike : x.Alike y) :
    x = y ∨ ∃ negative, x = .float (.signedZero negative) ∧
      y = .float (.signedZero !negative) := by
  unfold Alike unsignZero at alike
  cases x with
  | float x =>
    cases y <;> simp only [float.injEq, reduceCtorEq] at alike
    exact (Binary64.eq_or_signedZero alike).imp (congrArg float) fun ⟨negative, first, second⟩ =>
      ⟨negative, congrArg float first, congrArg float second⟩
  | _ => cases y <;> simp_all

theorem text_signedZero (d : Dialect) (negative : Bool) :
    text d (.float (.signedZero negative)) = if negative then "-0.0" else "0.0" := by
  cases negative <;> rfl

end Token

/-- The signs of the zeros that are written, in their order; `true` is a minus. -/
def zeroSigns (tokens : List Token) : List Bool := tokens.filterMap Token.zeroSign?

theorem zeroSigns_cons (x : Token) (xs : List Token) :
    zeroSigns (x :: xs) = x.zeroSign?.toList ++ zeroSigns xs := by
  rw [zeroSigns, List.filterMap_cons]
  cases x.zeroSign? <;> rfl

theorem zeroSigns_cons_inj (x : Token) {xs ys : List Token} :
    zeroSigns (x :: xs) = zeroSigns (x :: ys) ↔ zeroSigns xs = zeroSigns ys := by
  rw [zeroSigns_cons, zeroSigns_cons, List.append_cancel_left_eq]

theorem zeroSigns_cons_ne (negative : Bool) {xs ys : List Token} :
    zeroSigns (.float (.signedZero negative) :: xs) ≠
      zeroSigns (.float (.signedZero !negative) :: ys) := by
  have zero : ∀ negative zs, zeroSigns (.float (.signedZero negative) :: zs) =
      negative :: zeroSigns zs := fun _ _ => rfl
  rw [zero, zero]
  cases negative <;> simp

/-! ## Texts -/

section
variable (d : Dialect)

/-- A minus tells a zero from one without, whatever follows. -/
theorem zero_append_ne (negative : Bool) (s t : String) :
    Token.text d (.float (.signedZero negative)) ++ s ≠
      Token.text d (.float (.signedZero !negative)) ++ t := by
  intro same
  have first := congrArg (·.toList.head?) same
  cases negative <;> simp [Token.text_signedZero] at first

theorem spell_eq_iff {xs ys : List Token} (alike : List.Forall₂ Token.Alike xs ys) :
    spell d xs = spell d ys ↔ zeroSigns xs = zeroSigns ys := by
  induction alike with
  | nil => exact iff_of_true rfl rfl
  | @cons x y xs ys first _ ih =>
    simp only [spell, List.map_cons, String.join_cons] at ih ⊢
    rcases first.eq_or_zero with rfl | ⟨negative, rfl, rfl⟩
    · rw [String.append_right_inj, zeroSigns_cons_inj]
      exact ih
    · exact iff_of_false (zero_append_ne d negative _ _) (zeroSigns_cons_ne negative)

theorem spellRest_zero (started blank afterParen negative : Bool) (rest : List Token) :
    spellRest d started blank afterParen (.float (.signedZero negative) :: rest) =
      (if blank && (started && !afterParen) then [" "] else []) ++
        Token.text d (.float (.signedZero negative)) :: spellRest d true false false rest := by
  have shown : (Token.text d (.float (.signedZero negative))).isEmpty = false := by
    cases negative <;> rfl
  have opening : (Token.float (.signedZero negative) == .mark .leftParen) = false := rfl
  have closing : (Token.float (.signedZero negative) != .mark .rightParen) = true := rfl
  simp only [spellRest, Token.isBlank, Bool.false_eq_true, if_false, spaceBefore, shown, opening,
    closing, Bool.and_true, Bool.not_false, Bool.or_true]
  split <;> rfl

-- Blanks are left out by what stands around them, which is the same in both.
theorem spellRest_eq_iff {xs ys : List Token} (alike : List.Forall₂ Token.Alike xs ys)
    (started blank afterParen : Bool) :
    String.join (spellRest d started blank afterParen xs) =
        String.join (spellRest d started blank afterParen ys) ↔
      zeroSigns xs = zeroSigns ys := by
  induction alike generalizing started blank afterParen with
  | nil => exact iff_of_true rfl rfl
  | @cons x y xs ys first _ ih =>
    rcases first.eq_or_zero with rfl | ⟨negative, rfl, rfl⟩
    · rw [zeroSigns_cons_inj]
      simp only [spellRest]
      split
      · exact ih started true afterParen
      · split
        · simp only [String.join_cons, String.append_right_inj]
          exact ih _ _ _
        · simp only [String.join_cons, String.append_right_inj]
          exact ih _ _ _
    · refine iff_of_false (fun same => ?_) (zeroSigns_cons_ne negative)
      rw [spellRest_zero, spellRest_zero, String.join_append, String.join_append,
        String.append_right_inj, String.join_cons, String.join_cons] at same
      exact zero_append_ne d negative _ _ same

theorem spellCompact_eq_iff {xs ys : List Token} (alike : List.Forall₂ Token.Alike xs ys) :
    spellCompact d xs = spellCompact d ys ↔ zeroSigns xs = zeroSigns ys :=
  spellRest_eq_iff d alike false false false

end

/-! ## Expressions -/

theorem map_commaSeparated (parts : List (List Token)) :
    (commaSeparated parts).map Token.unsignZero =
      commaSeparated (parts.map (List.map Token.unsignZero)) := by
  induction parts with
  | nil => rfl
  | cons part rest ih =>
    cases rest with
    | nil => rfl
    | cons next rest =>
      simp only [commaSeparated, List.map_cons, List.map_append, List.map_nil] at ih ⊢
      rw [ih]
      rfl

namespace Expr

theorem strength?_unsignZeros (e : Expr) : e.unsignZeros.strength? = e.strength? := by
  cases e with
  | unary op operand => cases op <;> rfl
  | inList operand values negated => cases values <;> rfl
  | _ => rfl

theorem map_wrapped (parens : Bool) (tokens : List Token) :
    (wrapped parens tokens).map Token.unsignZero =
      wrapped parens (tokens.map Token.unsignZero) := by
  cases parens
  · rfl
  · simp [wrapped, parenthesized, Token.unsignZero]

theorem map_overTokens (partitionBy orderBy : List (List Token)) :
    (overTokens partitionBy orderBy).map Token.unsignZero =
      overTokens (partitionBy.map (List.map Token.unsignZero))
        (orderBy.map (List.map Token.unsignZero)) := by
  cases partitionBy <;> cases orderBy <;>
    simp [overTokens, introduced, Token.unsignZero, map_commaSeparated]

theorem unsignZerosEach_map (es : List Expr) : unsignZerosEach es = es.map unsignZeros := by
  induction es with
  | nil => rfl
  | cons e rest ih => rw [unsignZerosEach, ih, List.map_cons]

theorem unsignZerosKeys_map (orders : List (SortKey Expr)) : unsignZerosKeys orders =
    orders.map fun order => ⟨order.key.unsignZeros, order.direction⟩ := by
  induction orders with
  | nil => rfl
  | cons order rest ih => rw [unsignZerosKeys, ih, List.map_cons]

theorem tokens_unsignZeros (e : Expr) :
    e.unsignZeros.tokens = e.tokens.map Token.unsignZero := by
  have each : ∀ {es : List Expr},
      (∀ e ∈ es, e.unsignZeros.tokens = e.tokens.map Token.unsignZero) →
      tokensEach (unsignZerosEach es) = (tokensEach es).map (List.map Token.unsignZero) := by
    intro es one
    simp only [unsignZerosEach_map, tokensEach_eq, List.map_map]
    exact List.map_congr_left one
  have keys : ∀ {orders : List (SortKey Expr)},
      (∀ order ∈ orders, order.key.unsignZeros.tokens = order.key.tokens.map Token.unsignZero) →
      tokensKeys (unsignZerosKeys orders) =
        (tokensKeys orders).map (List.map Token.unsignZero) := by
    intro orders one
    simp only [unsignZerosKeys_map, tokensKeys_eq, List.map_map]
    refine List.map_congr_left fun order listed => ?_
    simp only [Function.comp, SortKey.tokens, one order listed, List.map_append]
    congr 1
    obtain ⟨key, direction⟩ := order
    rcases direction with _ | _ | _ <;> rfl
  have operator : ∀ op : BinaryOp, op.tokens.map Token.unsignZero = op.tokens := by
    intro op
    cases op <;> rfl
  induction e with
  | column table name => cases table <;> rfl
  | literal value => cases value <;> rfl
  | binary op left right ihl ihr =>
    simp [unsignZeros, tokens, looserThan, atMost, strength?_unsignZeros, map_wrapped, operator,
      ihl, ihr, Token.unsignZero]
  | unary op operand ih =>
    have sign : op.tokens.map Token.unsignZero = op.tokens := by cases op <;> rfl
    simp [unsignZeros, tokens, strength?_unsignZeros, map_wrapped, sign, ih]
  | function name args distinct ihs =>
    rw [unsignZeros, tokens, tokens, each ihs, ← map_commaSeparated]
    cases distinct <;> simp [parenthesized, Token.unsignZero]
  | inList operand values negated ih ihs =>
    cases values with
    | nil => rfl
    | cons value rest =>
      have values := each ihs
      simp only [unsignZerosEach, tokensEach] at values
      simp only [unsignZeros, unsignZerosEach, tokens, values, ← map_commaSeparated, atMost,
        strength?_unsignZeros, ih]
      cases negated <;> simp [parenthesized, Token.unsignZero, map_wrapped]
  | isNull operand negated ih =>
    simp [unsignZeros, tokens, atMost, strength?_unsignZeros, map_wrapped, ih, Token.unsignZero]
  | star table => cases table <;> rfl
  | window call partitionBy orderBy ih ihp iho =>
    rw [unsignZeros, tokens, tokens, ih, each ihp, keys iho, ← map_overTokens]
    simp [parenthesized, Token.unsignZero]
  | interval count unit => rfl
  | typed type text => rfl

/-- Expressions that are the same but for the signs of zeros have the same text just if these are
the same, too. -/
theorem alike_tokens {x y : Expr} (same : x.unsignZeros = y.unsignZeros) :
    List.Forall₂ Token.Alike x.tokens y.tokens := by
  have tokens := congrArg tokens same
  rw [tokens_unsignZeros, tokens_unsignZeros, map_eq_iff_related] at tokens
  exact tokens

end Expr

end Sql

end Rollup
