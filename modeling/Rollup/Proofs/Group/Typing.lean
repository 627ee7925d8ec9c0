import Rollup.Group.Typing
import Rollup.Proofs.Group.Target

/-! Types depend on what an expression is, not on how it is laid out.

Equal keys have equal types, and an expression has the type of what is put in the place of its
references. So an output has the same type before and after its shared parts are taken out, and
aggregates that are collected later do not change it.
-/

set_option autoImplicit false

namespace Rollup

theorem Literal.dataType_of_same {a b : Literal} (equal : a.same b = true) :
    a.dataType = b.dataType := by
  cases a <;> cases b <;> first | rfl | cases equal

namespace GroupExpr
variable {f h : Reference → DataType}

theorem dataTypes_eq (f : Reference → DataType) (es : List GroupExpr) :
    dataTypes f es = es.map (dataType f) := by
  induction es with
  | nil => rfl
  | cons e rest ih => rw [dataTypes, ih, List.map_cons]

theorem dataType_of_same {a b : GroupExpr} (equal : a.same b = true) :
    a.dataType f = b.dataType f := by
  rw [same_iff] at equal
  induction equal with
  | reference | inList => rfl
  | literal equal => exact Literal.dataType_of_same equal
  | binary _ _ first second => rw [dataType, dataType, first, second]
  | unary _ inner => rw [dataType, dataType, inner]
  | @call name args args' _ each =>
    have types : args.map (dataType f) = args'.map (dataType f) :=
      map_eq_iff_related.mpr (each.imp fun _ _ => Exists.snd)
    rw [dataType, dataType, dataTypes_eq, dataTypes_eq, types]

theorem dataType_substitute {g : Reference → GroupExpr} {e : GroupExpr}
    (each : ∀ target ∈ e.references, (g target).dataType f = h target) :
    (e.substitute g).dataType f = e.dataType h := by
  induction e with
  | reference target => exact each target (by simp)
  | literal value => rfl
  | binary op left right ihl ihr =>
    rw [substitute_binary, dataType, dataType,
      ihl fun target member => each target (by simp [member]),
      ihr fun target member => each target (by simp [member])]
  | unary op operand ih =>
    rw [substitute_unary, dataType, dataType,
      ih fun target member => each target (by simpa using member)]
  | inList operand items negated ih ihs =>
    rw [substitute_inList, dataType, dataType]
  | call name args ihs =>
    have types : (args.map (substitute g)).map (dataType f) = args.map (dataType h) := by
      rw [List.map_map]
      refine List.map_congr_left fun arg listed => ihs arg listed fun target member => ?_
      exact each target (by simp; exact ⟨arg, listed, member⟩)
    rw [substitute_call, dataType, dataType, dataTypes_eq, dataTypes_eq, types]

theorem dataType_congr {e : GroupExpr} (each : ∀ target ∈ e.references, f target = h target) :
    e.dataType f = e.dataType h := by
  have kept : e.substitute reference = e := substitute_eq_self fun _ _ => rfl
  rw [← dataType_substitute (g := reference) each, kept]

end GroupExpr

namespace TypeScope
variable {scope : TypeScope}

theorem typeOf_eq (scope : TypeScope) (e : GroupExpr) :
    scope.typeOf e = (e.unshare (scope.shared.map (·.expr))).dataType scope.plainType := by
  refine (GroupExpr.dataType_substitute fun target _ => ?_).symm
  cases target with
  | shared index =>
    rw [definitionIn, referenceType, List.getElem?_map]
    cases scope.shared[index]? <;> rfl
  | _ => rfl

theorem typeOf_shared {output output' : Output}
    (from_ : SharedFrom (scope.shared.map (·.expr)) output output') :
    scope.typeOf output'.expr = output.expr.dataType scope.plainType := by
  rw [typeOf_eq]
  exact GroupExpr.dataType_of_same from_.same

/-- More aggregates change no type of what could be referred to without them. -/
theorem plainType_of_prefix {schema : Schema} {keys : List GroupKey}
    {calls calls' : List AggregateCall} {shared shared' : List SharedExpr} {target : Reference}
    {outputs : Nat} (kept : calls <+: calls')
    (within : target.IsWithin (extentOf keys.length outputs calls)) :
    plainType ⟨schema, keys, calls', shared⟩ target =
      plainType ⟨schema, keys, calls, shared'⟩ target := by
  obtain ⟨rest, rfl⟩ := kept
  cases target with
  | aggregate index =>
    have bound : index < calls.length := within
    simp only [plainType, List.getElem?_append_left bound]
  | _ => rfl

end TypeScope

end Rollup
