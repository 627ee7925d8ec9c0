import Rollup.Proofs.Compile.Resolver

/-! Which error an expression fails with when its names are replaced.

Only names are replaced, and they have no operands, so what a pass finds at their positions is what
stands there. The pass goes from left to right and ends with the first name that is refused.
-/

set_option autoImplicit false

namespace Rollup

namespace Expr
variable {ε : Type} {g h : Expr → Except ε Expr} {e : Expr} {path path' : List Nat}
  {fault fault' : ε}

/-- The first name that is refused is at a position, and this is why. -/
structure FirstRefused (g : Expr → Except ε Expr) (e : Expr) (fault : ε) (path : List Nat) :
    Prop where
  refused : ∃ name, e.at? path = some name ∧ name.isName = true ∧ g name = .error fault
  before {path' : List Nat} {name : Expr} : Precedes path' path → e.at? path' = some name →
    name.isName = true → ∃ x, g name = .ok x

namespace FirstRefused

theorem congr (same : ∀ name : Expr, name.isName = true → g name = h name)
    (first : FirstRefused g e fault path) : FirstRefused h e fault path where
  refused :=
    let ⟨name, found, is, failed⟩ := first.refused
    ⟨name, found, is, same name is ▸ failed⟩
  before precedes found is := same _ is ▸ first.before precedes found is

theorem unique (first : FirstRefused g e fault path) (other : FirstRefused g e fault' path') :
    fault = fault' := by
  obtain ⟨name, found, is, failed⟩ := first.refused
  obtain ⟨name', found', is', failed'⟩ := other.refused
  rcases Precedes.trichotomous path path' with before | rfl | before
  · obtain ⟨x, ok⟩ := other.before before found is
    cases failed.symm.trans ok
  · cases found.symm.trans found'
    cases failed.symm.trans failed'
    rfl
  · obtain ⟨x, ok⟩ := first.before before found' is'
    cases failed'.symm.trans ok

end FirstRefused

section
variable (other : ∀ e : Expr, e.isName = false → g e = .ok e)
include other

theorem exists_firstRefused (failed : e.transformM g = .error fault) :
    ∃ path, FirstRefused g e fault path := by
  obtain ⟨visits, pass⟩ := exists_onePass (stateless g) e ()
  have failed : e.transformM (stateless g) () = .error fault () := by
    rw [transformM_stateless, failed]
    rfl
  obtain ⟨visit, member, last, before⟩ := pass.error failed
  obtain ⟨node, operands, found, argument, -⟩ := pass.rebuilt visit member
  have refused := (stateless_eq_error.mp last).1
  rw [argument] at refused
  cases is : node.isName with
  | false =>
    rw [other _ ((isName_withOperands node operands).trans is)] at refused
    cases refused
  | true =>
    rw [withOperands_of_isName is] at refused
    refine ⟨visit.position, ⟨node, found, is, refused⟩, fun {path' name} precedes place named => ?_⟩
    obtain ⟨x, visit', member', rfl, t, given⟩ := before path' name precedes place
    obtain ⟨same, operands', found', argument', -⟩ := pass.rebuilt visit' member'
    cases found'.symm.trans place
    have given := (stateless_eq_ok.mp given).1
    rw [argument', withOperands_of_isName named] at given
    exact ⟨x, given⟩

theorem transformM_eq_error_iff :
    e.transformM g = .error fault ↔ ∃ path, FirstRefused g e fault path := by
  refine ⟨exists_firstRefused other, fun ⟨path, first⟩ => ?_⟩
  cases reached : e.transformM g with
  | error fault' =>
    obtain ⟨path', first'⟩ := exists_firstRefused other reached
    rw [first.unique first']
  | ok x =>
    obtain ⟨name, found, is, failed⟩ := first.refused
    obtain ⟨y, ok⟩ := replaced_of_transformM reached (mem_nodes_of_at? found) is
    cases failed.symm.trans ok

end

end Expr

namespace Resolver
variable {r : Resolver} {e : Expr} {fault : CompileError}

/-- The error of a resolved expression is that of the first name in it, from left to right, that
does not resolve, be it in the expression or in a definition that the name opens. -/
theorem inline_eq_error_iff :
    r.inline e = .error fault ↔ ∃ path, Expr.FirstRefused r.inline e fault path := by
  have named : ∀ name : Expr, name.isName = true →
      r.inlineNode r.schema.derived.length [] name = r.inline name := by
    intro name is
    rw [inline, inlineWithin_eq]
    cases name <;> first | rfl | cases is
  calc r.inline e = .error fault
      ↔ e.transformM (r.inlineNode r.schema.derived.length []) = .error fault := by
        rw [inline, inlineWithin_eq]
    _ ↔ ∃ path, Expr.FirstRefused (r.inlineNode r.schema.derived.length []) e fault path :=
        Expr.transformM_eq_error_iff fun _ => inlineNode_other
    _ ↔ ∃ path, Expr.FirstRefused r.inline e fault path :=
        exists_congr fun _ => ⟨.congr named, .congr fun name is => (named name is).symm⟩

end Resolver

end Rollup
