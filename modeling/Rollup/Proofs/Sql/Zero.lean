import Rollup.Proofs.Expr.Literal
import Rollup.Proofs.Sql.Expr
import Rollup.Staging.Rendering

/-! Expressions of statements up to the signs of zeros.

Two expressions are the same computation when they differ at most in the signs of zeros. Literals
that are equal as keys are written as such expressions.
-/

set_option autoImplicit false

namespace Rollup

def Binary64.unsignZero : Binary64 → Binary64
  | .finite negative code => .finite (negative && code.val != 0) code
  | x => x

theorem Binary64.unsignZero_of_sameKey {x y : Binary64} (same : x.sameKey y = true) :
    x.unsignZero = y.unsignZero := by
  cases x <;> cases y <;> simp_all [sameKey, unsignZero]; grind

namespace Sql

def Literal.unsignZero : Literal → Literal
  | .float x => .float x.unsignZero
  | value => value

namespace Expr

mutual

/-- The expression with the sign of every zero taken away. -/
def unsignZeros : Expr → Expr
  | .column table name => .column table name
  | .literal value => .literal value.unsignZero
  | .binary op left right => .binary op (unsignZeros left) (unsignZeros right)
  | .unary op operand => .unary op (unsignZeros operand)
  | .function name args distinct => .function name (unsignZerosEach args) distinct
  | .inList operand values negated =>
    .inList (unsignZeros operand) (unsignZerosEach values) negated
  | .isNull operand negated => .isNull (unsignZeros operand) negated
  | .star table => .star table
  | .window call partitionBy orderBy =>
    .window (unsignZeros call) (unsignZerosEach partitionBy) (unsignZerosKeys orderBy)
  | .interval count unit => .interval count unit
  | .typed type text => .typed type text

def unsignZerosEach : List Expr → List Expr
  | [] => []
  | e :: rest => unsignZeros e :: unsignZerosEach rest

def unsignZerosKeys : List (SortKey Expr) → List (SortKey Expr)
  | [] => []
  | ⟨e, direction⟩ :: rest => ⟨unsignZeros e, direction⟩ :: unsignZerosKeys rest

end

theorem unsignZerosEach_eq {es es' : List Expr}
    (each : List.Forall₂ (fun e e' => e.unsignZeros = e'.unsignZeros) es es') :
    unsignZerosEach es = unsignZerosEach es' := by
  induction each with
  | nil => rfl
  | cons first _ ih => rw [unsignZerosEach, unsignZerosEach, first, ih]

theorem isNull_unsignZeros (e : Expr) :
    Renderer.isNull e.unsignZeros = Renderer.isNull e := by
  cases e with
  | literal value => cases value <;> rfl
  | _ => rfl

theorem unsignZeros_combine (op : Rollup.BinaryOp) (left right : Expr) :
    (Renderer.combine op left right).unsignZeros =
      Renderer.combine op left.unsignZeros right.unsignZeros := by
  -- A null value has no sign, so the same operand is tested for null.
  have equality : ∀ (op : BinaryOp) (negated : Bool),
      (Renderer.equality op negated left right).unsignZeros =
        Renderer.equality op negated left.unsignZeros right.unsignZeros := by
    intro op negated
    simp only [Renderer.equality, isNull_unsignZeros]
    split
    · rfl
    · split <;> rfl
  cases op <;> first | exact equality _ _ | rfl

end Expr

end Sql

theorem Literal.unsignZeros_toSql_of_same {a b : Literal} (equal : a.same b = true) :
    a.toSql.unsignZeros = b.toSql.unsignZeros := by
  cases a <;> cases b <;> simp only [Literal.same, Bool.false_eq_true, beq_iff_eq] at equal
  case float =>
    simp only [toSql, Sql.Expr.unsignZeros, Sql.Literal.unsignZero,
      Binary64.unsignZero_of_sameKey equal]
  case percentage =>
    simp only [toSql, Sql.Expr.unsignZeros, Sql.Literal.unsignZero,
      Binary64.unsignZero_of_sameKey equal]
  case duration => simp only [toSql, beq_iff_eq.mp equal]
  case null => rfl
  all_goals rw [equal]

end Rollup
