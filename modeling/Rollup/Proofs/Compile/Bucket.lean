import Rollup.Proofs.Compile.Derived
import Rollup.Proofs.Group.Occurrence

/-! The length of a bucket and the aggregates of an expression.

A placeholder stands for a number, and numbers call nothing. So whatever the length of a bucket is,
an expression calls the same aggregates when it is resolved, in the same places.
-/

set_option autoImplicit false

namespace Rollup.Resolver

def withBucket (r : Resolver) (seconds : Option Int) : Resolver :=
  { r with bucketSeconds := seconds }

/-- Two expressions call the same aggregates, also when their metrics are aggregated, and are single
aggregates then only together. -/
structure Alike (r r' : Resolver) (x y : Expr) : Prop where
  called : x.aggregates r.registry = y.aggregates r.registry
  covered : (r.aggregateMetrics x).aggregates r.registry =
    (r'.aggregateMetrics y).aggregates r.registry
  single : (r.aggregateMetrics x).isAggregateCall r.registry =
    (r'.aggregateMetrics y).isAggregateCall r.registry

variable {r : Resolver} {seconds : Option Int} {x y : Expr} {xs ys : List Expr}

theorem called_each (each : List.Forall₂ (Alike r (r.withBucket seconds)) xs ys) :
    xs.flatMap (·.aggregates r.registry) = ys.flatMap (·.aggregates r.registry) := by
  induction each with
  | nil => rfl
  | cons first _ ih => rw [List.flatMap_cons, List.flatMap_cons, first.called, ih]

theorem covered_each (each : List.Forall₂ (Alike r (r.withBucket seconds)) xs ys) :
    (r.aggregateMetricsEach xs).flatMap (·.aggregates r.registry) =
      ((r.withBucket seconds).aggregateMetricsEach ys).flatMap (·.aggregates r.registry) := by
  induction each with
  | nil => rfl
  | cons first _ ih =>
    rw [aggregateMetricsEach, aggregateMetricsEach, List.flatMap_cons, List.flatMap_cons,
      first.covered, ih]

theorem alike_column (name : String) :
    Alike r (r.withBucket seconds) (.column name) (.column name) := by
  constructor
  · rfl
  · rw [aggregateMetrics, aggregateMetrics, withBucket]
  · rw [aggregateMetrics, aggregateMetrics, withBucket]

theorem alike_call (name : String) (each : List.Forall₂ (Alike r (r.withBucket seconds)) xs ys) :
    Alike r (r.withBucket seconds) (.call name xs) (.call name ys) := by
  have called : (Expr.call name xs).aggregates r.registry =
      (Expr.call name ys).aggregates r.registry := by
    rw [Expr.aggregates_call, Expr.aggregates_call]
    exact congrArg _ (called_each each)
  have same : (r.withBucket seconds).registry = r.registry := rfl
  refine ⟨called, ?_, ?_⟩
  · rw [aggregateMetrics, aggregateMetrics, same]
    split
    · exact called
    · rw [Expr.aggregates_call, Expr.aggregates_call]
      exact congrArg _ (covered_each each)
  · rw [aggregateMetrics, aggregateMetrics, same]
    split <;> rfl

theorem alike_withOperands {e : Expr} (is : e.isName = false)
    (length : xs.length = e.children.length)
    (each : List.Forall₂ (Alike r (r.withBucket seconds)) xs ys) :
    Alike r (r.withBucket seconds) (e.withOperands xs) (e.withOperands ys) := by
  cases e with
  | column | placeholder => cases is
  | literal value => exact ⟨rfl, rfl, rfl⟩
  | binary op left right =>
    obtain ⟨_, _, rfl⟩ := List.length_eq_two.mp length
    cases each with
    | cons left rest =>
      cases rest with
      | cons right rest =>
        cases rest
        refine ⟨?_, ?_, rfl⟩
        · rw [Expr.withOperands, Expr.withOperands, Expr.aggregates_binary,
            Expr.aggregates_binary, left.called, right.called]
        · rw [Expr.withOperands, Expr.withOperands, aggregateMetrics, aggregateMetrics,
            Expr.aggregates_binary, Expr.aggregates_binary, left.covered, right.covered]
  | unary op operand =>
    obtain ⟨_, rfl⟩ := List.length_eq_one_iff.mp length
    cases each with
    | cons operand rest =>
      cases rest
      exact ⟨operand.called, operand.covered, rfl⟩
  | inList operand items negated =>
    obtain ⟨_, _, rfl⟩ := List.exists_cons_of_length_eq_add_one length
    cases each with
    | cons operand items =>
      refine ⟨?_, ?_, rfl⟩
      · rw [Expr.withOperands, Expr.withOperands, Expr.aggregates_inList, Expr.aggregates_inList,
          operand.called]
        exact congrArg _ (called_each items)
      · rw [Expr.withOperands, Expr.withOperands, aggregateMetrics, aggregateMetrics,
          Expr.aggregates_inList, Expr.aggregates_inList, operand.covered]
        exact congrArg _ (covered_each items)
  | call name args => exact alike_call name each

theorem alike_transformM {f g : Expr → Except CompileError Expr}
    (names : ∀ e : Expr, e.isName = true → ∀ x y, f e = .ok x → g e = .ok y →
      Alike r (r.withBucket seconds) x y)
    (other : ∀ e : Expr, e.isName = false → f e = .ok e)
    (other' : ∀ e : Expr, e.isName = false → g e = .ok e) {e : Expr}
    (left : e.transformM f = .ok x) (right : e.transformM g = .ok y) :
    Alike r (r.withBucket seconds) x y := by
  induction e using Expr.byChildren generalizing x y with
  | step e ih =>
    cases is : e.isName with
    | true =>
      rw [Expr.transformM_of_isName is] at left right
      exact names e is x y left right
    | false =>
      obtain ⟨xs, lefts, rfl⟩ := (Expr.transformM_eq_ok other is).mp left
      obtain ⟨ys, rights, rfl⟩ := (Expr.transformM_eq_ok other' is).mp right
      have parts : List.Forall₂ (fun x part => part ∈ e.children ∧ part.transformM f = .ok x) xs
          e.children :=
        (forall₂_imp_of_mem lefts fun part child x ok => ⟨child, ok⟩).flip
      refine alike_withOperands is lefts.length_eq.symm ((related_comp parts rights).imp ?_)
      rintro x y ⟨part, ⟨child, left⟩, right⟩
      exact ih part child left right

theorem alike_inlineWithin {depth : Nat} {stack : List String} {e : Expr}
    (left : r.inlineWithin depth stack e = .ok x)
    (right : (r.withBucket seconds).inlineWithin depth stack e = .ok y) :
    Alike r (r.withBucket seconds) x y := by
  -- A definition is opened with one derived column fewer left to open, whatever a bucket is.
  induction depth using Nat.strongRecOn generalizing stack e x y with
  | _ depth ih =>
    rw [inlineWithin_eq] at left right
    refine alike_transformM (fun node is x y left right => ?_)
      (fun node other => inlineNode_other other) (fun node other => inlineNode_other other)
      left right
    cases node with
    | placeholder name =>
      obtain ⟨value, -, rfl⟩ := map_eq_ok.mp left
      obtain ⟨value', -, rfl⟩ := map_eq_ok.mp right
      exact ⟨rfl, rfl, rfl⟩
    | column name =>
      have schema : (r.withBucket seconds).schema = r.schema := rfl
      cases found : r.schema.column? name with
      | none =>
        simp only [inlineNode, found] at left
        cases left
      | some column =>
        cases column with
        | derived column =>
          simp only [inlineNode, schema, found] at left right
          split at left
          · cases left
          · rename_i fresh
            rw [if_neg fresh] at right
            cases depth with
            | zero => cases left
            | succ depth => exact ih depth (Nat.lt_succ_self _) left right
        | _ =>
          simp only [inlineNode, schema, found] at left right
          cases left
          cases right
          exact alike_column name
    | _ => cases is

theorem alike_resolve {e : Expr} (left : r.resolve e = .ok x)
    (right : (r.withBucket seconds).resolve e = .ok y) : Alike r (r.withBucket seconds) x y := by
  simp only [resolve, bind_eq_ok, pure_eq_ok] at left right
  obtain ⟨x, left, -, -, rfl⟩ := left
  obtain ⟨y, right, -, -, rfl⟩ := right
  exact alike_inlineWithin left right

end Rollup.Resolver
