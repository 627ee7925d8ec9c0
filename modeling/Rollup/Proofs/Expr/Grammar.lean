import Rollup.Expr.Parser
import Rollup.Proofs.Reader

/-! The grammar of expressions.

`Derives` is the grammar as a context-free one, without any order in which its rules are tried. The
left operand of an operator may be of the operator's own level, which associates them to the left.
-/

set_option autoImplicit false

namespace Rollup

def BinaryOp.spelling : BinaryOp → List Token
  | .add => [.symbol .plus]
  | .sub => [.symbol .minus]
  | .mul => [.symbol .star]
  | .div => [.symbol .slash]
  | .mod => [.symbol .percent]
  | .eq => [.symbol .eq]
  | .ne => [.symbol .ne]
  | .lt => [.symbol .lt]
  | .lte => [.symbol .lte]
  | .gt => [.symbol .gt]
  | .gte => [.symbol .gte]
  | .like => [.like]
  | .notLike => [.not, .like]
  | .and => [.and]
  | .or => [.or]

namespace Expr

open Reader (listed)

inductive Category where
  | atom
  | signed
  | chain (level : Chain)
  | compare
  | not
  deriving DecidableEq

def Chain.operand : Chain → Category
  | .or => .chain .and
  | .and => .not
  | .sum => .chain .product
  | .product => .signed

def Chain.operators : Chain → List BinaryOp
  | .or => [.or]
  | .and => [.and]
  | .sum => [.add, .sub]
  | .product => [.mul, .div, .mod]

def comparisons : List BinaryOp := [.eq, .ne, .lt, .lte, .gt, .gte, .like, .notLike]

def enclosed (within : List Token) : List Token :=
  .symbol .leftParen :: within ++ [.symbol .rightParen]

def commas (parts : List (List Token × Expr)) : List Token :=
  listed (.symbol .comma) parts

theorem mem_commas {parts : List (List Token × Expr)} {part : List Token × Expr} {token : Token}
    (listed : part ∈ parts) (member : token ∈ part.1) : token ∈ commas parts := by
  cases parts with
  | nil => cases listed
  | cons first others =>
    rw [commas, Reader.listed_cons, List.mem_append]
    cases List.mem_cons.mp listed with
    | inl same => exact .inl (same ▸ member)
    | inr later =>
      exact .inr (List.mem_flatMap.mpr ⟨part, later, List.mem_cons_of_mem _ member⟩)

/-- What holds of each item whose tokens are of a kind holds of all, if the tokens of the list are
of that kind. -/
theorem forall_items {P : Token → Prop} {Q : Expr → Prop} {parts : List (List Token × Expr)}
    (each : ∀ part ∈ parts, (∀ token ∈ part.1, P token) → Q part.2)
    (all : ∀ token ∈ commas parts, P token) : ∀ item ∈ parts.map (·.2), Q item := by
  rw [List.forall_mem_map]
  intro part listed
  exact each part listed fun token member => all token (mem_commas listed member)

def negation (negated : Bool) : List Token :=
  if negated then [.not] else []

/-- What the tokens of each category write. -/
inductive Derives : Category → List Token → Expr → Prop where
  | literal (value : Literal) : Derives .atom [.literal value] (.literal value)
  | placeholder (name : String) : Derives .atom [.placeholder name] (.placeholder name)
  | column (name : String) : Derives .atom [.name name] (.column name)
  | call (name : String) {parts : List (List Token × Expr)} (nonempty : parts ≠ [])
      (each : ∀ part ∈ parts, Derives (.chain .or) part.1 part.2) :
      Derives .atom (.name name :: enclosed (commas parts)) (.call name (parts.map (·.2)))
  | callNothing (name : String) : Derives .atom (.name name :: enclosed []) (.call name [])
  | callStar (name : String) :
      Derives .atom (.name name :: enclosed [.symbol .star]) (.call name [])
  | parentheses {tokens : List Token} {e : Expr} (inner : Derives (.chain .or) tokens e) :
      Derives .atom (enclosed tokens) e
  | unsigned {tokens : List Token} {e : Expr} (inner : Derives .atom tokens e) :
      Derives .signed tokens e
  | negative {tokens : List Token} {e : Expr} (inner : Derives .signed tokens e) :
      Derives .signed (.symbol .minus :: tokens) (negate e)
  | operand {level : Chain} {tokens : List Token} {e : Expr}
      (inner : Derives level.operand tokens e) : Derives (.chain level) tokens e
  | binary {level : Chain} {op : BinaryOp} {left right : List Token} {l r : Expr}
      (allowed : op ∈ level.operators) (first : Derives (.chain level) left l)
      (second : Derives level.operand right r) :
      Derives (.chain level) (left ++ op.spelling ++ right) (.binary op l r)
  | sum {tokens : List Token} {e : Expr} (inner : Derives (.chain .sum) tokens e) :
      Derives .compare tokens e
  | compare {op : BinaryOp} {left right : List Token} {l r : Expr} (allowed : op ∈ comparisons)
      (first : Derives (.chain .sum) left l) (second : Derives (.chain .sum) right r) :
      Derives .compare (left ++ op.spelling ++ right) (.binary op l r)
  | member {tokens : List Token} {e : Expr} {parts : List (List Token × Expr)} (negated : Bool)
      (first : Derives (.chain .sum) tokens e) (nonempty : parts ≠ [])
      (each : ∀ part ∈ parts, Derives (.chain .or) part.1 part.2) :
      Derives .compare (tokens ++ negation negated ++ .member :: enclosed (commas parts))
        (.inList e (parts.map (·.2)) negated)
  | null {tokens : List Token} {e : Expr} (negated : Bool)
      (first : Derives (.chain .sum) tokens e) :
      Derives .compare (tokens ++ .is :: negation negated ++ [.literal .null])
        (.binary (if negated then .ne else .eq) e (.literal .null))
  | positive {tokens : List Token} {e : Expr} (inner : Derives .compare tokens e) :
      Derives .not tokens e
  | not {tokens : List Token} {e : Expr} (inner : Derives .not tokens e) :
      Derives .not (.not :: tokens) (.unary .not e)

/-! ## First tokens -/

/-- How far up the grammar a token can be the first one: a sign from the signed level on, `not`
from its own on. -/
def opening : Token → Nat
  | .literal _ | .placeholder _ | .name _ | .symbol .leftParen => 0
  | .symbol .minus => 1
  | .not => 2
  | _ => 3

def Category.opening : Category → Nat
  | .atom => 0
  | .signed | .chain .product | .chain .sum | .compare => 1
  | .not | .chain .and | .chain .or => 2

theorem opening_operand (level : Chain) :
    level.operand.opening = (Category.chain level).opening := by
  cases level <;> rfl

theorem Derives.opens {category : Category} {tokens : List Token} {e : Expr}
    (derives : Derives category tokens e) :
    ∃ token rest, tokens = token :: rest ∧ opening token ≤ category.opening := by
  induction derives with
  | literal | placeholder | column | call | callNothing | callStar | parentheses =>
    exact ⟨_, _, rfl, Nat.le_refl 0⟩
  | negative => exact ⟨_, _, rfl, Nat.le_refl 1⟩
  | not => exact ⟨_, _, rfl, Nat.le_refl 2⟩
  | unsigned _ ih =>
    obtain ⟨token, rest, split, within⟩ := ih
    exact ⟨token, rest, split, Nat.le_succ_of_le within⟩
  | positive _ ih =>
    obtain ⟨token, rest, split, within⟩ := ih
    exact ⟨token, rest, split, Nat.le_succ_of_le within⟩
  | operand _ ih => simpa [opening_operand] using ih
  | sum _ ih => exact ih
  | binary _ _ _ ih | compare _ _ _ ih | member _ _ _ _ ih | null _ _ ih =>
    obtain ⟨token, rest, split, within⟩ := ih
    exact ⟨token, _, by rw [split]; rfl, within⟩

end Expr

end Rollup
