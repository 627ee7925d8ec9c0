import Rollup.Proofs.Compile.Derived
import Rollup.Proofs.Group.Call

/-! Conditions are resolved as a whole.

Lifting a condition resolves its names, placeholders and aggregates where it meets them, and checks
the calls around them on the way. Where no name stands for an output, this is the same as to resolve
the whole condition first and to take the aggregates out of the result: either fails when the other
does, and they collect the same aggregates in the same order.
-/

set_option autoImplicit false

namespace Rollup

section
variable {σ α β γ : Type} {R : α → β → Prop} {step : β → σ → γ → σ → Prop}

theorem runs_comp {as : List α} {xs : List γ} {s t : σ} :
    Runs (fun a u x v => ∃ b, R a b ∧ step b u x v) as s xs t ↔
      ∃ bs, List.Forall₂ R as bs ∧ Runs step bs s xs t := by
  constructor
  · intro run
    induction run with
    | nil => exact ⟨[], .nil, .nil _⟩
    | cons first _ ih =>
      obtain ⟨b, related, first⟩ := first
      obtain ⟨bs, others, tail⟩ := ih
      exact ⟨b :: bs, .cons related others, .cons first tail⟩
  · rintro ⟨bs, related, run⟩
    induction related generalizing s xs with
    | nil =>
      cases run
      exact .nil _
    | cons head _ ih =>
      cases run with
      | cons first tail => exact .cons ⟨_, head, first⟩ (ih tail)

end

/-! ## Resolving the parts -/

namespace Resolver
variable {r : Resolver}

theorem checkCallsEach_iff {enclosing : Option String} {es : List Expr} :
    r.checkCallsEach enclosing es = .ok () ↔ ∀ e ∈ es, r.checkCalls enclosing e = .ok () := by
  refine ⟨checkCallsEach_eq_ok, fun each => ?_⟩
  induction es with
  | nil => rfl
  | cons e rest ih =>
    rw [checkCallsEach, each e List.mem_cons_self]
    exact ih fun e member => each e (List.mem_cons_of_mem _ member)

theorem resolve_eq_ok {e x : Expr} :
    r.resolve e = .ok x ↔ r.inline e = .ok x ∧ r.checkCalls none x = .ok () := by
  simp only [resolve, bind_eq_ok, pure_eq_ok]
  constructor
  · rintro ⟨y, inlined, ⟨⟩, checked, rfl⟩
    exact ⟨inlined, checked⟩
  · rintro ⟨inlined, checked⟩
    exact ⟨x, inlined, (), checked, rfl⟩

theorem resolveEach_iff {es xs : List Expr} :
    (Expr.transformItemsM (r.inlineNode r.schema.derived.length []) es = .ok xs ∧
        r.checkCallsEach none xs = .ok ()) ↔
      List.Forall₂ (fun e x => r.resolve e = .ok x) es xs := by
  rw [Expr.transformItemsM_eq, mapM_eq_ok, checkCallsEach_iff]
  simp only [resolve_eq_ok, inline, inlineWithin_eq]
  constructor
  · rintro ⟨each, checked⟩
    induction each with
    | nil => exact .nil
    | cons first _ ih =>
      obtain ⟨head, tail⟩ := List.forall_mem_cons.mp checked
      exact .cons ⟨first, head⟩ (ih tail)
  · intro each
    refine ⟨each.imp fun _ _ => And.left, fun x listed => ?_⟩
    obtain ⟨_, -, -, checked⟩ := related_of_mem_right each listed
    exact checked

theorem resolve_literal (value : Literal) :
    r.resolve (.literal value) = .ok (.literal value) := by
  refine resolve_eq_ok.mpr ⟨inline_stored fun node member is => ?_, rfl⟩
  obtain rfl := Expr.mem_nodes_literal.mp member
  cases is

theorem resolve_stored {name : String} (stored : r.schema.isStored name = true) :
    r.resolve (.column name) = .ok (.column name) := by
  refine resolve_eq_ok.mpr ⟨inline_stored fun node member is => ⟨name, ?_, stored⟩, rfl⟩
  exact Expr.mem_nodes_column.mp member

theorem resolve_unknown {name : String} (unknown : r.schema.column? name = none) {x : Expr} :
    r.resolve (.column name) ≠ .ok x := by
  intro ok
  have inlined := (resolve_eq_ok.mp ok).1
  rw [inline, inlineWithin_eq, Expr.transformM, inlineNode, unknown] at inlined
  cases inlined

theorem resolve_placeholder_eq_ok {name : String} {x : Expr} :
    r.resolve (.placeholder name) = .ok x ↔
      ∃ value, r.placeholderValue name = .ok value ∧ x = .literal value := by
  rw [resolve_eq_ok, inline, inlineWithin_eq, Expr.transformM, inlineNode, map_eq_ok]
  constructor
  · rintro ⟨⟨value, found, rfl⟩, -⟩
    exact ⟨value, found, rfl⟩
  · rintro ⟨value, found, rfl⟩
    exact ⟨⟨value, found, rfl⟩, rfl⟩

theorem resolve_binary {op : BinaryOp} {left right x : Expr} :
    r.resolve (.binary op left right) = .ok x ↔ ∃ left' right', r.resolve left = .ok left' ∧
      r.resolve right = .ok right' ∧ x = .binary op left' right' := by
  simp only [resolve_eq_ok, inline, inlineWithin_eq, Expr.transformM, bind_eq_ok,
    inlineNode_other (e := .binary op _ _) rfl, Except.ok.injEq]
  constructor
  · rintro ⟨⟨l, okl, r', okr, rfl⟩, checked⟩
    obtain ⟨⟨⟩, checkedl, checkedr⟩ := bind_eq_ok.mp checked
    exact ⟨l, r', ⟨okl, checkedl⟩, ⟨okr, checkedr⟩, rfl⟩
  · rintro ⟨l, r', ⟨okl, checkedl⟩, ⟨okr, checkedr⟩, rfl⟩
    exact ⟨⟨l, okl, r', okr, rfl⟩, bind_eq_ok.mpr ⟨(), checkedl, checkedr⟩⟩

theorem resolve_unary {op : UnaryOp} {operand x : Expr} :
    r.resolve (.unary op operand) = .ok x ↔
      ∃ operand', r.resolve operand = .ok operand' ∧ x = .unary op operand' := by
  simp only [resolve_eq_ok, inline, inlineWithin_eq, Expr.transformM, bind_eq_ok,
    inlineNode_other (e := .unary op _) rfl, Except.ok.injEq]
  constructor
  · rintro ⟨⟨y, ok, rfl⟩, checked⟩
    exact ⟨y, ⟨ok, checked⟩, rfl⟩
  · rintro ⟨y, ⟨ok, checked⟩, rfl⟩
    exact ⟨⟨y, ok, rfl⟩, checked⟩

theorem resolve_inList {operand x : Expr} {items : List Expr} {negated : Bool} :
    r.resolve (.inList operand items negated) = .ok x ↔
      ∃ operand' items', r.resolve operand = .ok operand' ∧
        List.Forall₂ (fun e x => r.resolve e = .ok x) items items' ∧
        x = .inList operand' items' negated := by
  rw [resolve_eq_ok, inline, inlineWithin_eq, Expr.transformM]
  simp only [bind_eq_ok, inlineNode_other (e := .inList _ _ negated) rfl, Except.ok.injEq]
  constructor
  · rintro ⟨⟨y, ok, ys, oks, rfl⟩, checked⟩
    obtain ⟨⟨⟩, checked, checkedEach⟩ := bind_eq_ok.mp checked
    rw [← inlineWithin_eq] at ok
    exact ⟨y, ys, resolve_eq_ok.mpr ⟨ok, checked⟩, resolveEach_iff.mp ⟨oks, checkedEach⟩, rfl⟩
  · rintro ⟨y, ys, ok, oks, rfl⟩
    obtain ⟨ok, checked⟩ := resolve_eq_ok.mp ok
    obtain ⟨oks, checkedEach⟩ := resolveEach_iff.mpr oks
    rw [inline, inlineWithin_eq] at ok
    exact ⟨⟨y, ok, ys, oks, rfl⟩, bind_eq_ok.mpr ⟨(), checked, checkedEach⟩⟩

theorem resolve_scalar {name : String} {args : List Expr} {spec : FunctionSpec} {x : Expr}
    (found : r.registry.get? name = some spec) (scalar : spec.kind = .scalar) :
    r.resolve (.call name args) = .ok x ↔ spec.accepts args.length = true ∧
      ∃ args', List.Forall₂ (fun e x => r.resolve e = .ok x) args args' ∧
        x = .call name args' := by
  rw [resolve_eq_ok, inline, inlineWithin_eq, Expr.transformM]
  simp only [bind_eq_ok, inlineNode_other (e := .call name _) rfl, Except.ok.injEq]
  have checks : ∀ args', args'.length = args.length →
      (r.checkCalls none (.call name args') = .ok () ↔
        spec.accepts args.length = true ∧ r.checkCallsEach none args' = .ok ()) := by
    intro args' same
    rw [checkCalls, found]
    simp only [same, scalar]
    cases spec.accepts args.length <;> simp
  have length : ∀ {args'}, Expr.transformItemsM (r.inlineNode r.schema.derived.length []) args =
      .ok args' → args'.length = args.length := by
    intro args' oks
    rw [Expr.transformItemsM_eq, mapM_eq_ok] at oks
    exact oks.length_eq.symm
  constructor
  · rintro ⟨⟨ys, oks, rfl⟩, checked⟩
    obtain ⟨accepts, checked⟩ := (checks ys (length oks)).mp checked
    exact ⟨accepts, ys, resolveEach_iff.mp ⟨oks, checked⟩, rfl⟩
  · rintro ⟨accepts, ys, each, rfl⟩
    obtain ⟨oks, checked⟩ := resolveEach_iff.mpr each
    exact ⟨⟨ys, oks, rfl⟩, (checks ys (length oks)).mpr ⟨accepts, checked⟩⟩

theorem resolve_unknownFunction {name : String} {args : List Expr} {x : Expr}
    (unknown : r.registry.get? name = none) : r.resolve (.call name args) ≠ .ok x := by
  intro ok
  obtain ⟨args', rfl⟩ := resolve_call ok
  obtain ⟨spec, checked⟩ := checked_resolve ok (Expr.self_mem_nodes _)
  cases unknown.symm.trans checked.found

end Resolver

/-! ## Lifting what is resolved -/

namespace FilterScope
variable {scope : FilterScope}

theorem exists_lift_resolved {e resolved : Expr} (ok : scope.resolver.resolve e = .ok resolved)
    (calls : List AggregateCall) :
    ∃ result, (lift scope.resolver.registry rowColumn resolved).run calls = .ok result := by
  have never : RunFailsOnly (fun _ => False) (lift scope.resolver.registry rowColumn resolved) := by
    refine failsOnly_lift _ (fun _ _ => .ok _) fun name member => ?_
    obtain ⟨_, same, -⟩ := Resolver.names_resolve ok _ member rfl
    cases same
  cases run : (lift scope.resolver.registry rowColumn resolved).run calls with
  | error fault => exact (never calls fault run).elim
  | ok result => exact ⟨result, rfl⟩

/-- No name stands for an output: a column is stored, or no output has its name. -/
def NamesNoOutput (scope : FilterScope) (e : Expr) : Prop :=
  ∀ name ∈ e.columns, scope.resolver.schema.isStored name = true ∨
    ∀ output ∈ scope.outputs, output.name ≠ name

def LiftsResolved (scope : FilterScope) (e : Expr) (first : List AggregateCall) (x : GroupExpr)
    (last : List AggregateCall) : Prop :=
  ∃ resolved, scope.resolver.resolve e = .ok resolved ∧
    (lift scope.resolver.registry rowColumn resolved).run first = .ok (x, last)

theorem liftName_eq_ok {name : String} (plain : scope.NamesNoOutput (.column name))
    {first last : List AggregateCall} {x : GroupExpr} :
    (scope.liftName name).run first = .ok (x, last) ↔
      scope.LiftsResolved (.column name) first x last := by
  unfold liftName LiftsResolved
  split
  · rename_i stored
    rw [Resolver.resolve_stored stored, run_pure_eq_ok]
    simp only [Except.ok.injEq, exists_eq_left', lift, run_lift_eq_ok, rowColumn]
  · rename_i unstored
    have unnamed : scope.outputs.findIdx? (·.name == name) = none := by
      refine List.findIdx?_eq_none_iff.mpr fun output listed => ?_
      exact beq_eq_false_iff_ne.mpr ((plain name (by simp)).resolve_left unstored output listed)
    rw [unnamed]
    dsimp only
    split
    · exact liftResolved_eq_ok
    · rename_i other
      -- A name that is neither stored nor derived is unknown.
      have unknown : scope.resolver.schema.column? name = none := by
        cases found : scope.resolver.schema.column? name with
        | none => rfl
        | some column =>
          cases column with
          | derived column => exact absurd found (other column)
          | _ => exact absurd (Resolver.isStored_of_column? found rfl) unstored
      refine iff_of_false (fun failed => ?_) ?_
      · cases failed
      · rintro ⟨_, ok, -⟩
        exact Resolver.resolve_unknown unknown ok

def LiftsEachResolved (scope : FilterScope) (es : List Expr) (first : List AggregateCall)
    (xs : List GroupExpr) (last : List AggregateCall) : Prop :=
  ∃ resolved, List.Forall₂ (fun e x => scope.resolver.resolve e = .ok x) es resolved ∧
    (Rollup.liftEach scope.resolver.registry rowColumn resolved).run first = .ok (xs, last)

theorem liftEach_eq_ok {es : List Expr} {first last : List AggregateCall} {xs : List GroupExpr}
    (one : ∀ e ∈ es, ∀ {first last x}, (scope.liftExpr e).run first = .ok (x, last) ↔
      scope.LiftsResolved e first x last) :
    (scope.liftEach es).run first = .ok (xs, last) ↔
      scope.LiftsEachResolved es first xs last := by
  simp only [LiftsEachResolved, liftEach_eq, Rollup.liftEach_eq, mapM_run_eq_ok, ← runs_comp]
  exact ⟨fun run => run.imp_of_mem fun e listed x u v => (one e listed).mp,
    fun run => run.imp_of_mem fun e listed x u v => (one e listed).mpr⟩

section
variable {first last : List AggregateCall} {x : GroupExpr}

theorem liftsResolved_literal {value : Literal} :
    scope.LiftsResolved (.literal value) first x last ↔ .literal value = x ∧ first = last := by
  rw [LiftsResolved, Resolver.resolve_literal]
  simp only [Except.ok.injEq, exists_eq_left', lift, run_pure_eq_ok]

theorem liftsResolved_placeholder {name : String} :
    scope.LiftsResolved (.placeholder name) first x last ↔
      ∃ value, scope.resolver.placeholderValue name = .ok value ∧
        .literal value = x ∧ first = last := by
  simp only [LiftsResolved, Resolver.resolve_placeholder_eq_ok]
  constructor
  · rintro ⟨_, ⟨value, found, rfl⟩, run⟩
    rw [lift, run_pure_eq_ok] at run
    exact ⟨value, found, run⟩
  · rintro ⟨value, found, same⟩
    refine ⟨_, ⟨value, found, rfl⟩, ?_⟩
    rw [lift, run_pure_eq_ok]
    exact same

theorem liftsResolved_binary {op : BinaryOp} {left right : Expr} :
    scope.LiftsResolved (.binary op left right) first x last ↔
      ∃ l middle, scope.LiftsResolved left first l middle ∧
        ∃ r end_, scope.LiftsResolved right middle r end_ ∧ .binary op l r = x ∧ end_ = last := by
  simp only [LiftsResolved, Resolver.resolve_binary]
  constructor
  · rintro ⟨_, ⟨left', right', okl, okr, rfl⟩, run⟩
    simp only [lift, run_bind_eq_ok, run_pure_eq_ok] at run
    obtain ⟨l, middle, liftedl, r, end_, liftedr, same⟩ := run
    exact ⟨l, middle, ⟨left', okl, liftedl⟩, r, end_, ⟨right', okr, liftedr⟩, same⟩
  · rintro ⟨l, middle, ⟨left', okl, liftedl⟩, r, end_, ⟨right', okr, liftedr⟩, same⟩
    refine ⟨_, ⟨left', right', okl, okr, rfl⟩, ?_⟩
    simp only [lift, run_bind_eq_ok, run_pure_eq_ok]
    exact ⟨l, middle, liftedl, r, end_, liftedr, same⟩

theorem liftsResolved_unary {op : UnaryOp} {operand : Expr} :
    scope.LiftsResolved (.unary op operand) first x last ↔
      ∃ y end_, scope.LiftsResolved operand first y end_ ∧ .unary op y = x ∧ end_ = last := by
  simp only [LiftsResolved, Resolver.resolve_unary]
  constructor
  · rintro ⟨_, ⟨operand', ok, rfl⟩, run⟩
    simp only [lift, run_bind_eq_ok, run_pure_eq_ok] at run
    obtain ⟨y, end_, lifted, same⟩ := run
    exact ⟨y, end_, ⟨operand', ok, lifted⟩, same⟩
  · rintro ⟨y, end_, ⟨operand', ok, lifted⟩, same⟩
    refine ⟨_, ⟨operand', ok, rfl⟩, ?_⟩
    simp only [lift, run_bind_eq_ok, run_pure_eq_ok]
    exact ⟨y, end_, lifted, same⟩

theorem liftsResolved_inList {operand : Expr} {items : List Expr} {negated : Bool} :
    scope.LiftsResolved (.inList operand items negated) first x last ↔
      ∃ y middle, scope.LiftsResolved operand first y middle ∧
        ∃ ys end_, scope.LiftsEachResolved items middle ys end_ ∧
          .inList y ys negated = x ∧ end_ = last := by
  simp only [LiftsResolved, LiftsEachResolved, Resolver.resolve_inList]
  constructor
  · rintro ⟨_, ⟨operand', items', ok, oks, rfl⟩, run⟩
    simp only [lift, run_bind_eq_ok, run_pure_eq_ok] at run
    obtain ⟨y, middle, lifted, ys, end_, lifts, same⟩ := run
    exact ⟨y, middle, ⟨operand', ok, lifted⟩, ys, end_, ⟨items', oks, lifts⟩, same⟩
  · rintro ⟨y, middle, ⟨operand', ok, lifted⟩, ys, end_, ⟨items', oks, lifts⟩, same⟩
    refine ⟨_, ⟨operand', items', ok, oks, rfl⟩, ?_⟩
    simp only [lift, run_bind_eq_ok, run_pure_eq_ok]
    exact ⟨y, middle, lifted, ys, end_, lifts, same⟩

theorem liftsResolved_scalar {name : String} {args : List Expr} {spec : FunctionSpec}
    (found : scope.resolver.registry.get? name = some spec) (scalar : spec.kind = .scalar) :
    scope.LiftsResolved (.call name args) first x last ↔ spec.accepts args.length = true ∧
      ∃ ys end_, scope.LiftsEachResolved args first ys end_ ∧
        .call name ys = x ∧ end_ = last := by
  have absent : scope.resolver.registry.aggregate? name = none := by
    simp [Registry.aggregate?, found, FunctionSpec.aggregate?, scalar]
  simp only [LiftsResolved, LiftsEachResolved, Resolver.resolve_scalar found scalar]
  constructor
  · rintro ⟨_, ⟨accepts, args', oks, rfl⟩, run⟩
    simp only [lift, absent, run_bind_eq_ok, run_pure_eq_ok] at run
    obtain ⟨ys, end_, lifts, same⟩ := run
    exact ⟨accepts, ys, end_, ⟨args', oks, lifts⟩, same⟩
  · rintro ⟨accepts, ys, end_, ⟨args', oks, lifts⟩, same⟩
    refine ⟨_, ⟨accepts, args', oks, rfl⟩, ?_⟩
    simp only [lift, absent, run_bind_eq_ok, run_pure_eq_ok]
    exact ⟨ys, end_, lifts, same⟩

theorem not_liftsResolved_of_unknown {name : String} {args : List Expr}
    (unknown : scope.resolver.registry.get? name = none) :
    ¬scope.LiftsResolved (.call name args) first x last := by
  rintro ⟨_, ok, -⟩
  exact Resolver.resolve_unknownFunction unknown ok

end

/-- What a condition is lifted to is what its resolved form is lifted to. -/
theorem liftExpr_eq_ok {e : Expr} (plain : scope.NamesNoOutput e) {first last : List AggregateCall}
    {x : GroupExpr} :
    (scope.liftExpr e).run first = .ok (x, last) ↔ scope.LiftsResolved e first x last := by
  induction e generalizing first last x with
  | literal value => rw [liftExpr, run_pure_eq_ok, liftsResolved_literal]
  | column name => exact liftName_eq_ok plain
  | placeholder name =>
    simp only [liftExpr, run_bind_eq_ok, run_pure_eq_ok, liftsResolved_placeholder]
    constructor
    · rintro ⟨value, middle, run, same⟩
      obtain ⟨found, rfl⟩ := run_lift_eq_ok.mp run
      exact ⟨value, found, same⟩
    · rintro ⟨value, found, same⟩
      exact ⟨value, first, run_lift_eq_ok.mpr ⟨found, rfl⟩, same⟩
  | binary op left right ihl ihr =>
    have ihl := @ihl fun name named => plain name (by simp [named])
    have ihr := @ihr fun name named => plain name (by simp [named])
    simp only [liftExpr, run_bind_eq_ok, run_pure_eq_ok, ihl, ihr, liftsResolved_binary]
  | unary op operand ih =>
    have ih := @ih fun name named => plain name (by simpa using named)
    simp only [liftExpr, run_bind_eq_ok, run_pure_eq_ok, ih, liftsResolved_unary]
  | inList operand items negated ih ihs =>
    have ih := @ih fun name named => plain name (by simp [named])
    have ihs := fun {first last xs} => @liftEach_eq_ok scope items first last xs fun item listed =>
      ihs item listed fun name named =>
        plain name (Expr.mem_columns_inList.mpr (.inr ⟨item, listed, named⟩))
    simp only [liftExpr, run_bind_eq_ok, run_pure_eq_ok, ih, ihs, liftsResolved_inList]
  | call name args ihs =>
    rw [liftExpr]
    split
    · rename_i unknown
      refine iff_of_false (fun failed => ?_) (not_liftsResolved_of_unknown unknown)
      cases failed
    · rename_i spec found
      split
      · exact liftResolved_eq_ok
      · rename_i kind
        have ihs := fun {last xs} => @liftEach_eq_ok scope args first last xs fun arg listed =>
          ihs arg listed fun name named =>
            plain name (Expr.mem_columns_call.mpr ⟨arg, listed, named⟩)
        rw [liftsResolved_scalar found kind]
        cases spec.accepts args.length with
        | false =>
          refine iff_of_false (fun failed => ?_) ?_
          · cases failed
          · rintro ⟨accepts, -⟩
            cases accepts
        | true =>
          simp only [Bool.not_true, Bool.false_eq_true, if_false, run_bind_eq_ok, run_pure_eq_ok,
            ihs, true_and]

/-- A condition in which no name stands for an output is lifted exactly when it is resolved, and
then as the resolved condition is lifted: to the same expression, with the same aggregates collected
in the same order. -/
theorem liftExpr_resolved {e : Expr} (plain : scope.NamesNoOutput e) (calls : List AggregateCall) :
    ((∃ result, (scope.liftExpr e).run calls = .ok result) ↔
        ∃ resolved, scope.resolver.resolve e = .ok resolved) ∧
      ∀ resolved, scope.resolver.resolve e = .ok resolved →
        (scope.liftExpr e).run calls =
          (lift scope.resolver.registry rowColumn resolved).run calls := by
  have same : ∀ {resolved}, scope.resolver.resolve e = .ok resolved →
      (scope.liftExpr e).run calls =
        (lift scope.resolver.registry rowColumn resolved).run calls := by
    intro resolved ok
    obtain ⟨⟨x, last⟩, run⟩ := exists_lift_resolved ok calls
    exact ((liftExpr_eq_ok plain).mpr ⟨resolved, ok, run⟩).trans run.symm
  refine ⟨⟨fun ⟨⟨x, last⟩, run⟩ => ?_, fun ⟨resolved, ok⟩ => ?_⟩, fun _ => same⟩
  · obtain ⟨resolved, ok, -⟩ := (liftExpr_eq_ok plain).mp run
    exact ⟨resolved, ok⟩
  · obtain ⟨result, run⟩ := exists_lift_resolved ok calls
    exact ⟨result, (same ok).trans run⟩

end FilterScope

/-! ## A filter with a derived column -/

def FilterScope.busyHosts : FilterScope where
  resolver := {
    schema := {
      name := "hosts"
      table := "metrics"
      dimensions := [⟨"host", .string⟩]
      metrics := [⟨"cpu", .float, .avg⟩, ⟨"count", .int, .sum⟩]
      derived := [⟨"load", "sum(cpu) / count", .binary .div (.call "sum" [.column "cpu"])
        (.call "sum" [.column "count"])⟩] }
    registry := .builtin
    bucketSeconds := some 60 }
  keys := [⟨"host", "host"⟩]
  outputs := [⟨"host", .reference (.key 0), .key 0⟩,
    ⟨"top", .reference (.aggregate 0), .aggregate 0⟩]

/-- A high load, given as the rounded quotient of a derived column and the length of a bucket, or a
high maximum. -/
def Expr.busy : Expr :=
  .binary .or
    (.binary .gt (.call "round" [.binary .div (.column "load") (.placeholder "interval")])
      (.literal (.int 2)))
    (.binary .gt (.call "max" [.column "cpu"]) (.literal (.int 90)))

theorem FilterScope.liftExpr_busy :
    (busyHosts.NamesNoOutput .busy ∧
      (busyHosts.resolver.resolve .busy).toOption.isSome = true) ∧
    ((∃ result, (busyHosts.liftExpr .busy).run [] = .ok result) ↔
        ∃ resolved, busyHosts.resolver.resolve .busy = .ok resolved) ∧
      ∀ resolved, busyHosts.resolver.resolve .busy = .ok resolved →
        (busyHosts.liftExpr .busy).run [] =
          (lift busyHosts.resolver.registry rowColumn resolved).run [] := by
  have plain : busyHosts.NamesNoOutput .busy := by
    unfold NamesNoOutput
    decide +kernel
  exact ⟨⟨plain, by decide +kernel⟩, liftExpr_resolved plain []⟩

end Rollup
