import Rollup.Proofs.Group.Output
import Rollup.Proofs.Staging.Aggregate

/-! What references are written as.

A key is a column, an aggregate is computed or read by name, and so is a shared expression. What a
scope has names for is read by them.
-/

set_option autoImplicit false

namespace Rollup

-- References come in layers, and so do the expressions they stand in: conditions refer to outputs,
-- outputs to shared expressions, and these to keys and aggregates.

/-- References in expressions that have been lifted: keys and aggregates. -/
def Reference.isLifted : Reference → Bool
  | .key _ | .aggregate _ => true
  | _ => false

def Reference.isInner : Reference → Bool
  | .key _ | .aggregate _ | .shared _ => true
  | _ => false

theorem Reference.isInner_of_isLifted {target : Reference} (is : target.isLifted = true) :
    target.isInner = true := by
  cases target <;> first | rfl | cases is

theorem Output.IsLifted.isLifted {keys : List GroupKey} {output : Output}
    (lifted : output.IsLifted keys) :
    ∀ target ∈ output.expr.references, target.isLifted = true := by
  intro target member
  rcases lifted.refers target member with ⟨index, rfl⟩ | ⟨index, rfl⟩ <;> rfl

namespace Renderer

variable {r : Renderer} {scope : Scope} {x : Sql.Expr} {e : GroupExpr}

theorem target_eq_ok {α : Type} {items : List α} {index : Nat} {item : α} :
    target items index = .ok item ↔ items[index]? = some item := by
  unfold target
  split <;> simp_all

theorem target_map {α β : Type} (f : α → β) (items : List α) (index : Nat) :
    target (items.map f) index = (target items index).map f := by
  rw [target, target, List.getElem?_map]
  cases items[index]? <;> rfl

theorem slotName_eq_ok {slot : AggregateSlot} {name : String} :
    slotName slot = .ok name ↔ slot.name = some name := by
  unfold slotName
  split <;> simp_all

theorem sharedName_eq_ok {index : Nat} {part : SharedExpr} {name : String} :
    sharedName index part = .ok name ↔ part.name = some name := by
  unfold sharedName
  split <;> simp_all

theorem key_eq_ok {index : Nat} :
    r.plainReference scope (.key index) = .ok x ↔
      ∃ key, r.keys[index]? = some key ∧ keyExpr key scope = x := by
  simp only [plainReference, map_eq_ok, target_eq_ok]

theorem aggregate_eq_ok {index : Nat} :
    r.plainReference scope (.aggregate index) = .ok x ↔
      ∃ slot, r.slots[index]? = some slot ∧ r.slotExpr slot scope = .ok x := by
  have bound : r.plainReference scope (.aggregate index) =
      (target r.slots index >>= fun slot => r.slotExpr slot scope) := rfl
  simp only [bound, bind_eq_ok, target_eq_ok]

theorem slotExpr_of_name {slot : AggregateSlot} (late : scope = .groups ∨ slot.windowed = true) :
    r.slotExpr slot scope = .ok x ↔ ∃ name, slot.name = some name ∧ Sql.Expr.named name = x := by
  have read : (scope == .groups || slot.windowed) = true := by
    rcases late with rfl | windowed
    · rfl
    · rw [windowed, Bool.or_true]
  simp only [slotExpr, read, if_true, map_eq_ok, slotName_eq_ok]

theorem slotExpr_of_call {slot : AggregateSlot} (early : scope ≠ .groups)
    (grouped : slot.windowed = false) : r.slotExpr slot scope = r.aggregate slot.call := by
  rw [slotExpr, grouped]
  cases scope <;> first | rfl | exact absurd rfl early

theorem shared_of_name {index : Nat} :
    r.innerReference .groups (.shared index) = .ok x ↔
      ∃ part, r.shared[index]? = some part ∧
        ∃ name, part.name = some name ∧ Sql.Expr.named name = x := by
  simp only [innerReference, sharedExpr, bind_eq_ok, target_eq_ok, beq_self_eq_true, if_true,
    map_eq_ok, sharedName_eq_ok]

theorem shared_of_expr {index : Nat} (early : scope ≠ .groups) :
    r.innerReference scope (.shared index) = .ok x ↔
      ∃ part, r.shared[index]? = some part ∧
        groupExpr (r.plainReference scope) part.expr = .ok x := by
  have computed : (scope == .groups) = false := beq_eq_false_iff_ne.mpr early
  simp only [innerReference, sharedExpr, bind_eq_ok, target_eq_ok, computed, Bool.false_eq_true,
    if_false]

theorem output_eq_ok {index : Nat} :
    r.reference .groups (.output index) = .ok x ↔
      ∃ output, r.outputs[index]? = some output ∧
        if r.dialect.aliasInWhere then Sql.Expr.named output.name = x
        else groupExpr (r.innerReference .groups) output.expr = .ok x := by
  -- Only the last stage, which reads groups, has outputs beside its condition.
  simp only [reference, outputExpr, bind_eq_ok, target_eq_ok, bne_self_eq_false,
    Bool.false_eq_true, if_false]
  refine exists_congr fun output => and_congr_right fun _ => ?_
  split
  · exact pure_eq_ok
  · rfl

theorem reference_of_isInner {target : Reference} (is : target.isInner = true) :
    r.reference scope target = r.innerReference scope target := by
  cases target <;> first | rfl | cases is

theorem innerReference_of_isLifted {target : Reference} (is : target.isLifted = true) :
    r.innerReference scope target = r.plainReference scope target := by
  cases target <;> first | rfl | cases is

theorem groupExpr_of_same {f g : Reference → Except CompileError Sql.Expr}
    (same : ∀ target ∈ e.references, f target = g target) (ok : groupExpr f e = .ok x) :
    groupExpr g e = .ok x := by
  obtain ⟨y, ok, rfl⟩ := groupExpr_related congruent_eq (fun _ _ => trivial)
    (fun target member y ok => ⟨y, same target member ▸ ok, rfl⟩) ok
  exact ok

theorem render_of_isInner (inner : ∀ target ∈ e.references, target.isInner = true)
    (ok : r.render scope e = .ok x) : groupExpr (r.innerReference scope) e = .ok x :=
  groupExpr_of_same (fun target member => reference_of_isInner (inner target member)) ok

theorem render_of_isLifted (lifted : ∀ target ∈ e.references, target.isLifted = true)
    (ok : r.render scope e = .ok x) : groupExpr (r.plainReference scope) e = .ok x :=
  groupExpr_of_same (fun target member => innerReference_of_isLifted (lifted target member))
    (render_of_isInner (fun target member =>
      Reference.isInner_of_isLifted (lifted target member)) ok)

end Renderer

end Rollup
