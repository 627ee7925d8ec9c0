import Rollup.Proofs.Group.Call

/-! Aggregates have what they need.

A resolved expression has no placeholders left, and it calls no aggregate without an argument but
that of all rows. This survives when metrics are put into their own aggregates, so every collected
aggregate can be written: it has an argument that is written as it stands, or it counts rows.
-/

set_option autoImplicit false

namespace Rollup

/-- Whether a node is neither a placeholder nor an aggregate without the argument it needs. -/
def Expr.isCompleteNode (registry : Registry) : Expr → Bool
  | .placeholder _ => false
  | .call name [] => (registry.aggregate? name).all (· == .count)
  | _ => true

def Expr.IsComplete (registry : Registry) (e : Expr) : Prop :=
  ∀ node ∈ e.nodes, node.isCompleteNode registry = true

theorem Expr.IsComplete.part {registry : Registry} {part e : Expr}
    (complete : e.IsComplete registry)
    (within : ∀ node ∈ part.nodes, node ∈ e.nodes) : part.IsComplete registry :=
  fun node member => complete node (within node member)

structure AggregateCall.IsComplete (registry : Registry) (call : AggregateCall) : Prop where
  argued : call.arg = none → call.func = .count
  arg : ∀ arg, call.arg = some arg → arg.IsComplete registry

def Registry.NeedsArguments (registry : Registry) : Prop :=
  ∀ spec ∈ registry.specs, spec.accepts 0 = true → spec.aggregate?.all (· == .count) = true

theorem needsArguments_builtin : Registry.builtin.NeedsArguments := by
  unfold Registry.NeedsArguments
  decide

namespace Resolver
variable {r : Resolver}

theorem isComplete_resolve (needs : r.registry.NeedsArguments) {e x : Expr}
    (ok : r.resolve e = .ok x) : x.IsComplete r.registry := by
  intro node member
  unfold Expr.isCompleteNode
  split
  · obtain ⟨_, same, -⟩ := names_resolve ok _ member rfl
    cases same
  · obtain ⟨spec, checked⟩ := checked_resolve ok member
    rw [Registry.aggregate?, checked.found, Option.bind_some]
    exact needs spec (List.mem_of_find?_eq_some checked.found) checked.accepts
  · rfl

theorem isCompleteNode_aggregateMetrics {e : Expr} (complete : e.isCompleteNode r.registry = true) :
    (r.aggregateMetrics e).isCompleteNode r.registry = true := by
  cases e with
  | column name =>
    rw [aggregateMetrics]
    split <;> rfl
  | call name args =>
    rw [aggregateMetrics]
    split
    · exact complete
    · cases args with
      | nil => exact complete
      | cons arg rest => rfl
  | _ => exact complete

theorem isComplete_aggregateMetrics {e : Expr} (complete : e.IsComplete r.registry) :
    (r.aggregateMetrics e).IsComplete r.registry := by
  intro node member
  rcases r.mem_nodes_aggregateMetrics member with kept | ⟨origin, within, rfl⟩
  · exact complete node kept
  · exact isCompleteNode_aggregateMetrics (complete origin within)

end Resolver

theorem AggregateCall.isComplete_of_mem {registry : Registry} {e : Expr}
    (complete : e.IsComplete registry) {name : String} {args : List Expr} {func : Aggregate}
    (member : .call name args ∈ e.nodes) (found : registry.aggregate? name = some func) :
    AggregateCall.IsComplete registry ⟨func, args.head?⟩ where
  argued absent := by
    obtain rfl := List.head?_eq_none_iff.mp absent
    have count := complete _ member
    rw [Expr.isCompleteNode, found, Option.all_some] at count
    exact beq_iff_eq.mp count
  arg arg given := complete.part fun node within =>
    Expr.nodes_subset member (Expr.mem_nodes_call.mpr (.inr ⟨arg, List.mem_of_head? given, within⟩))

end Rollup
