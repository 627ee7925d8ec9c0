import Rollup.Expr.Basic

/-! Equality of literals as keys is an equivalence. -/

set_option autoImplicit false

namespace Rollup

namespace Binary64

theorem sameKey_refl (x : Binary64) : x.sameKey x = true := by
  cases x <;> simp [sameKey]

theorem sameKey_symm {x y : Binary64} (same : x.sameKey y = true) : y.sameKey x = true := by
  cases x <;> cases y <;> simp_all [sameKey]
  grind

theorem sameKey_trans {x y z : Binary64} (first : x.sameKey y = true)
    (second : y.sameKey z = true) : x.sameKey z = true := by
  cases x <;> cases y <;> cases z <;> simp_all [sameKey]
  grind

end Binary64

namespace Literal

theorem same_refl (a : Literal) : a.same a = true := by
  cases a <;> simp [same, Duration.sameKey, Percentage.sameKey, Binary64.sameKey_refl]

theorem same_symm {a b : Literal} (equal : a.same b = true) : b.same a = true := by
  cases a <;> cases b <;>
    simp_all [same, Duration.sameKey, Percentage.sameKey, Binary64.sameKey_symm]

theorem same_trans {a b c : Literal} (first : a.same b = true) (second : b.same c = true) :
    a.same c = true := by
  cases a <;> cases b <;> simp only [same, Bool.false_eq_true] at first <;>
    cases c <;> simp only [same, Bool.false_eq_true] at second <;>
    simp_all [same, Duration.sameKey, Percentage.sameKey]
  case float => exact Binary64.sameKey_trans first second
  case percentage => exact Binary64.sameKey_trans first second

theorem eq_null_of_same {a : Literal} (equal : a.same .null = true) : a = .null := by
  cases a <;> first | rfl | cases equal

end Literal

end Rollup
