import Rollup.Group.Aggregation
import Rollup.Proofs.Computation
import Rollup.Proofs.Expr.Traversal
import Rollup.Proofs.Group.Expr

/-! Taking aggregates out of expressions.

A lifted expression has the shape of the expression it comes from, down to the columns and aggregate
calls, which some relation turns into other expressions. What it refers to, it refers to because of
them. The aggregates that are collected read what the lifted expressions name.
-/

set_option autoImplicit false

namespace Rollup

namespace Expr

def isAggregateCall (registry : Registry) : Expr → Bool
  | .call name _ => registry.isAggregate name
  | _ => false

/-- The subexpressions that are in no argument of an aggregate. -/
def outside (registry : Registry) (e : Expr) : List Expr :=
  e.walk fun node => !node.isAggregateCall registry

/-- What a lifted expression does not have from the expression it comes from. -/
def isLeaf (registry : Registry) : Expr → Bool
  | .column _ | .placeholder _ => true
  | e => e.isAggregateCall registry

section
variable {registry : Registry} {e node part : Expr}

theorem isAggregateCall_of_inner (inner : e.isLeaf registry = false) :
    e.isAggregateCall registry = false := by
  cases e <;> first | rfl | exact inner

theorem isLeaf_of_child (scalar : e.isAggregateCall registry = false) (child : part ∈ e.children) :
    e.isLeaf registry = false := by
  cases e <;> first | exact scalar | cases child

theorem outside_eq (scalar : e.isAggregateCall registry = false) :
    e.outside registry = e :: e.children.flatMap (outside registry) := by
  cases e with
  | call name args =>
    have scalar : registry.isAggregate name = false := scalar
    simp [outside, walk, isAggregateCall, scalar, walkItems_eq, children]
    rfl
  | _ => simp [outside, walk, isAggregateCall, walkItems_eq, children] <;> rfl

theorem mem_outside : node ∈ e.outside registry ↔ node = e ∨
    e.isAggregateCall registry = false ∧ ∃ part ∈ e.children, node ∈ part.outside registry := by
  rw [outside, mem_walk, Bool.not_eq_true']
  rfl

@[simp] theorem mem_outside_literal {value : Literal} :
    node ∈ (literal value).outside registry ↔ node = .literal value :=
  List.mem_singleton

@[simp] theorem mem_outside_column {name : String} :
    node ∈ (column name).outside registry ↔ node = .column name :=
  List.mem_singleton

@[simp] theorem mem_outside_placeholder {name : String} :
    node ∈ (placeholder name).outside registry ↔ node = .placeholder name :=
  List.mem_singleton

@[simp] theorem mem_outside_binary {op : BinaryOp} {left right : Expr} :
    node ∈ (binary op left right).outside registry ↔
      node = .binary op left right ∨ node ∈ left.outside registry ∨
        node ∈ right.outside registry :=
  List.mem_cons.trans (or_congr_right List.mem_append)

@[simp] theorem mem_outside_unary {op : UnaryOp} {operand : Expr} :
    node ∈ (unary op operand).outside registry ↔
      node = .unary op operand ∨ node ∈ operand.outside registry :=
  List.mem_cons

@[simp] theorem mem_outside_inList {operand : Expr} {items : List Expr} {negated : Bool} :
    node ∈ (inList operand items negated).outside registry ↔
      node = .inList operand items negated ∨ node ∈ operand.outside registry ∨
        ∃ item ∈ items, node ∈ item.outside registry := by
  refine List.mem_cons.trans (or_congr_right (List.mem_append.trans (or_congr_right ?_)))
  rw [walkItems_eq, List.mem_flatMap]
  rfl

theorem mem_outside_call {name : String} {args : List Expr} :
    node ∈ (call name args).outside registry ↔ node = .call name args ∨
      registry.isAggregate name = false ∧ ∃ arg ∈ args, node ∈ arg.outside registry := by
  simp only [outside, walk, isAggregateCall, Bool.not_eq_true', walkItems_eq, List.mem_cons]
  split
  · rename_i scalar
    rw [List.mem_flatMap]
    simp [scalar]
  · rename_i aggregate
    simp [aggregate]

theorem outside_subset_nodes : e.outside registry ⊆ e.nodes :=
  fun _ out => forall_walk (self_mem_nodes e) (fun _ within _ _ => child_mem_nodes within) _ out

theorem mem_columns_of_outside {name : String} (member : .column name ∈ e.outside registry) :
    name ∈ e.columns :=
  mem_columns.mpr (outside_subset_nodes member)

end

end Expr

-- Items of lists are related one by one. Induction on this relation says nothing of them, so proofs
-- go by induction on the expression and then look at how it is related.

/-- Expressions of the same shape down to the leaves. -/
inductive Lifts (registry : Registry) (Leaf : Expr → GroupExpr → Prop) :
    Expr → GroupExpr → Prop where
  | leaf {e : Expr} {x : GroupExpr} : e.isLeaf registry = true → Leaf e x → Lifts registry Leaf e x
  | literal (value : Literal) : Lifts registry Leaf (.literal value) (.literal value)
  | binary (op : BinaryOp) {left right : Expr} {left' right' : GroupExpr} :
      Lifts registry Leaf left left' → Lifts registry Leaf right right' →
        Lifts registry Leaf (.binary op left right) (.binary op left' right')
  | unary (op : UnaryOp) {operand : Expr} {operand' : GroupExpr} :
      Lifts registry Leaf operand operand' →
        Lifts registry Leaf (.unary op operand) (.unary op operand')
  | inList (negated : Bool) {operand : Expr} {operand' : GroupExpr} {items : List Expr}
      {items' : List GroupExpr} :
      Lifts registry Leaf operand operand' → List.Forall₂ (Lifts registry Leaf) items items' →
        Lifts registry Leaf (.inList operand items negated) (.inList operand' items' negated)
  | call (name : String) {args : List Expr} {args' : List GroupExpr} :
      registry.isAggregate name = false → List.Forall₂ (Lifts registry Leaf) args args' →
        Lifts registry Leaf (.call name args) (.call name args')

/-- An operation of a query and the same operation over groups, whatever the operands of both. -/
inductive SameOperation (registry : Registry) : Expr → GroupExpr → Prop where
  | literal (value : Literal) : SameOperation registry (.literal value) (.literal value)
  | binary (op : BinaryOp) (left right : Expr) (left' right' : GroupExpr) :
      SameOperation registry (.binary op left right) (.binary op left' right')
  | unary (op : UnaryOp) (operand : Expr) (operand' : GroupExpr) :
      SameOperation registry (.unary op operand) (.unary op operand')
  | inList (negated : Bool) (operand : Expr) (operand' : GroupExpr) (items : List Expr)
      (items' : List GroupExpr) :
      SameOperation registry (.inList operand items negated) (.inList operand' items' negated)
  | call (name : String) (args : List Expr) (args' : List GroupExpr) :
      registry.isAggregate name = false →
        SameOperation registry (.call name args) (.call name args')

namespace SameOperation
variable {registry : Registry} {e : Expr} {x : GroupExpr}

theorem isLeaf (same : SameOperation registry e x) : e.isLeaf registry = false := by
  cases same with
  | call _ _ _ scalar => exact scalar
  | _ => rfl

theorem target? (same : SameOperation registry e x) : x.target? = none := by
  cases same <;> rfl

end SameOperation

namespace Lifts
variable {registry : Registry} {Leaf : Expr → GroupExpr → Prop} {e : Expr} {x : GroupExpr}

theorem leaf_of_isLeaf (lifts : Lifts registry Leaf e x) (is : e.isLeaf registry = true) :
    Leaf e x := by
  cases lifts with
  | leaf _ leaf => exact leaf
  | call name scalar _ => cases scalar.symm.trans is
  | _ => cases is

theorem operands (lifts : Lifts registry Leaf e x) (inner : e.isLeaf registry = false) :
    SameOperation registry e x ∧ List.Forall₂ (Lifts registry Leaf) e.children x.children := by
  cases lifts with
  | leaf is _ => cases is.symm.trans inner
  | literal value => exact ⟨.literal value, .nil⟩
  | binary op left right => exact ⟨.binary op .., .cons left (.cons right .nil)⟩
  | unary op operand => exact ⟨.unary op .., .cons operand .nil⟩
  | inList negated operand items => exact ⟨.inList negated .., .cons operand items⟩
  | call name scalar args => exact ⟨.call name _ _ scalar, args⟩

theorem operation (same : SameOperation registry e x)
    (operands : List.Forall₂ (Lifts registry Leaf) e.children x.children) :
    Lifts registry Leaf e x := by
  cases same with
  | literal value => exact .literal value
  | binary op left right left' right' =>
    cases operands with
    | cons left rest => cases rest with | cons right _ => exact .binary op left right
  | unary op operand operand' => cases operands with | cons operand _ => exact .unary op operand
  | inList negated operand operand' items items' =>
    cases operands with | cons operand items => exact .inList negated operand items
  | call name args args' scalar => exact .call name scalar operands

theorem imp {Leaf' : Expr → GroupExpr → Prop} (lifts : Lifts registry Leaf e x)
    (each : ∀ e x, Leaf e x → Leaf' e x) : Lifts registry Leaf' e x := by
  induction e using Expr.byChildren generalizing x with
  | step e ih =>
    cases is : e.isLeaf registry with
    | true => exact .leaf is (each _ _ (lifts.leaf_of_isLeaf is))
    | false =>
      obtain ⟨same, operands⟩ := lifts.operands is
      exact .operation same (forall₂_imp_of_mem operands fun part child y => ih part child)

theorem references (lifts : Lifts registry Leaf e x) {target : Reference}
    (member : target ∈ x.references) :
    ∃ node ∈ e.outside registry, node.isLeaf registry = true ∧
      ∃ y, Leaf node y ∧ target ∈ y.references := by
  induction e using Expr.byChildren generalizing x with
  | step e ih =>
    cases is : e.isLeaf registry with
    | true => exact ⟨e, Expr.self_mem_walk, is, x, lifts.leaf_of_isLeaf is, member⟩
    | false =>
      obtain ⟨same, operands⟩ := lifts.operands is
      rw [GroupExpr.references_eq same.target?] at member
      obtain ⟨y, listed, member⟩ := List.mem_flatMap.mp member
      obtain ⟨part, child, lifted⟩ := related_of_mem_right operands listed
      obtain ⟨node, out, rest⟩ := ih part child lifted member
      have scalar := Expr.isAggregateCall_of_inner is
      exact ⟨node, Expr.mem_outside.mpr (.inr ⟨scalar, part, child, out⟩), rest⟩

theorem of_leaf (lifts : Lifts registry Leaf e x) {node : Expr}
    (member : node ∈ e.outside registry) (is : node.isLeaf registry = true) :
    ∃ y, Leaf node y ∧ y.references ⊆ x.references := by
  induction e using Expr.byChildren generalizing x with
  | step e ih =>
    rcases Expr.mem_outside.mp member with rfl | ⟨scalar, part, child, member⟩
    · exact ⟨x, lifts.leaf_of_isLeaf is, fun _ => id⟩
    · obtain ⟨same, operands⟩ := lifts.operands (Expr.isLeaf_of_child scalar child)
      obtain ⟨z, listed, lifted⟩ := related_of_mem_left operands child
      obtain ⟨y, leaf, within⟩ := ih part child lifted member
      rw [GroupExpr.references_eq same.target?]
      exact ⟨y, leaf, fun _ refers => List.mem_flatMap.mpr ⟨z, listed, within refers⟩⟩

end Lifts

/-! ## Lifting -/

def ReadOnly (P : String → Prop) (calls : List AggregateCall) : Prop :=
  ∀ call ∈ calls, ∀ name ∈ call.columns, P name

theorem readOnly_intern {P : String → Prop} {call : AggregateCall}
    {calls calls' : List AggregateCall} {index : Nat}
    (ok : (intern call).run calls = .ok (index, calls')) (reads : ∀ name ∈ call.columns, P name)
    (before : ReadOnly P calls) : ReadOnly P calls' := by
  simp only [intern, StateT.run] at ok
  split at ok
  · cases ok
    exact before
  · cases ok
    intro other member
    rcases List.mem_append.mp member with member | member
    · exact before other member
    · obtain rfl := List.mem_singleton.mp member
      exact reads

theorem columns_head? {P : String → Prop} {name : String} {args : List Expr} {func : Aggregate}
    (reads : ∀ column ∈ (Expr.call name args).columns, P column) :
    ∀ column ∈ (AggregateCall.mk func args.head?).columns, P column := by
  cases args with
  | nil => intro column member; cases member
  | cons arg rest =>
    intro column member
    exact reads column (Expr.mem_columns_call.mpr ⟨arg, List.mem_cons_self, member⟩)

/-- What the leaves of an expression turn into when it is lifted. -/
inductive LiftedLeaf (onColumn : String → Except CompileError GroupExpr) :
    Expr → GroupExpr → Prop where
  | column {name : String} {x : GroupExpr} :
      onColumn name = .ok x → LiftedLeaf onColumn (.column name) x
  | aggregate (name : String) (args : List Expr) (index : Nat) :
      LiftedLeaf onColumn (.call name args) (.reference (.aggregate index))

theorem liftEach_eq (registry : Registry) (onColumn : String → Except CompileError GroupExpr)
    (es : List Expr) : liftEach registry onColumn es = es.mapM (lift registry onColumn) := by
  induction es with
  | nil => rfl
  | cons e rest ih => rw [liftEach, ih, List.mapM_cons]

theorem isAggregate_of_aggregate? {registry : Registry} {name : String} {func : Aggregate}
    (found : registry.aggregate? name = some func) : registry.isAggregate name = true := by
  rw [Registry.isAggregate, found]
  rfl

theorem isAggregate_of_aggregate?_none {registry : Registry} {name : String}
    (absent : registry.aggregate? name = none) : registry.isAggregate name = false := by
  rw [Registry.isAggregate, absent]
  rfl

def Registry.IsScalar (registry : Registry) (name : String) : Prop :=
  (registry.get? name).map (·.kind) = some .scalar

theorem isAggregate_of_isScalar {registry : Registry} {name : String}
    (scalar : registry.IsScalar name) : registry.aggregate? name = none := by
  obtain ⟨spec, found, kind⟩ := Option.map_eq_some_iff.mp scalar
  simp [Registry.aggregate?, found, FunctionSpec.aggregate?, kind]

theorem isAggregate_builtin (func : Aggregate) : Registry.builtin.isAggregate func.name = true := by
  cases func <;> decide

/-- A way to take aggregates out of expressions that goes on with the operands of what is no leaf,
one after another. -/
structure Descends (registry : Registry) (f : Expr → Collecting GroupExpr) : Prop where
  operands {e : Expr} {x : GroupExpr} {first last : List AggregateCall} :
    e.isLeaf registry = false → (f e).run first = .ok (x, last) → SameOperation registry e x ∧
      Runs (fun part u y v => (f part).run u = .ok (y, v)) e.children first x.children last

-- What is proved of lifting is proved of leaves, and of operations as soon as it holds of their
-- operands. An operand is lifted with the aggregates of those before it collected.
theorem Descends.induction {registry : Registry} {f : Expr → Collecting GroupExpr}
    (descends : Descends registry f)
    {R : Expr → List AggregateCall → GroupExpr → List AggregateCall → Prop}
    (leaf : ∀ e x first last, e.isLeaf registry = true → (f e).run first = .ok (x, last) →
      R e first x last)
    (operation : ∀ e x first last, (f e).run first = .ok (x, last) → SameOperation registry e x →
      Runs R e.children first x.children last → R e first x last)
    {e : Expr} {x : GroupExpr} {first last : List AggregateCall}
    (ok : (f e).run first = .ok (x, last)) : R e first x last := by
  induction e using Expr.byChildren generalizing x first last with
  | step e ih =>
    cases is : e.isLeaf registry with
    | true => exact leaf e x first last is ok
    | false =>
      obtain ⟨same, runs⟩ := descends.operands is ok
      exact operation e x first last ok same
        (runs.imp_of_mem fun part child y u v => ih part child)

theorem descends_lift (registry : Registry) (onColumn : String → Except CompileError GroupExpr) :
    Descends registry (lift registry onColumn) where
  operands {e x first last} inner ok := by
    cases e with
    | column | placeholder => cases inner
    | literal value =>
      rw [lift, run_pure_eq_ok] at ok
      obtain ⟨rfl, rfl⟩ := ok
      exact ⟨.literal value, .nil _⟩
    | binary op left right =>
      simp only [lift, run_bind_eq_ok, run_pure_eq_ok] at ok
      obtain ⟨l, middle, okl, r, end_, okr, rfl, rfl⟩ := ok
      exact ⟨.binary op .., .cons okl (.cons okr (.nil _))⟩
    | unary op operand =>
      simp only [lift, run_bind_eq_ok, run_pure_eq_ok] at ok
      obtain ⟨y, end_, ok, rfl, rfl⟩ := ok
      exact ⟨.unary op .., .cons ok (.nil _)⟩
    | inList operand items negated =>
      simp only [lift, liftEach_eq, run_bind_eq_ok, run_pure_eq_ok, mapM_run_eq_ok] at ok
      obtain ⟨y, middle, ok, ys, end_, oks, rfl, rfl⟩ := ok
      exact ⟨.inList negated .., .cons ok oks⟩
    | call name args =>
      have scalar : registry.aggregate? name = none := by
        simpa [Expr.isLeaf, Expr.isAggregateCall, Registry.isAggregate] using inner
      simp only [lift, scalar, liftEach_eq, run_bind_eq_ok, run_pure_eq_ok, mapM_run_eq_ok] at ok
      obtain ⟨ys, end_, oks, rfl, rfl⟩ := ok
      exact ⟨.call name _ _ inner, oks⟩

theorem lift_induction {registry : Registry} {onColumn : String → Except CompileError GroupExpr}
    {R : Expr → List AggregateCall → GroupExpr → List AggregateCall → Prop}
    (column : ∀ name x calls, onColumn name = .ok x → R (.column name) calls x calls)
    (aggregate : ∀ name args func index first last, registry.aggregate? name = some func →
      (intern ⟨func, args.head?⟩).run first = .ok (index, last) →
      R (.call name args) first (.reference (.aggregate index)) last)
    (operation : ∀ e x first last, SameOperation registry e x →
      Runs R e.children first x.children last → R e first x last)
    {e : Expr} {x : GroupExpr} {first last : List AggregateCall}
    (ok : (lift registry onColumn e).run first = .ok (x, last)) : R e first x last := by
  refine (descends_lift registry onColumn).induction (fun e x first last is ok => ?_)
    (fun e x first last _ => operation e x first last) ok
  cases e with
  | column name =>
    rw [lift, run_lift_eq_ok] at ok
    obtain ⟨found, rfl⟩ := ok
    exact column name x first found
  | placeholder name => cases ok
  | call name args =>
    obtain ⟨func, found⟩ := Option.isSome_iff_exists.mp is
    simp only [lift, found, run_bind_eq_ok, run_pure_eq_ok] at ok
    obtain ⟨index, end_, ok, rfl, rfl⟩ := ok
    exact aggregate name args func index first end_ found ok
  | _ => cases is

theorem failsOnly_intern (P : CompileError → Prop) (call : AggregateCall) :
    RunFailsOnly P (intern call) := by
  intro calls
  simp only [StateT.run, intern]
  split
  · exact .ok _
  · exact .ok _

/-- Lifting fails at columns without a replacement and at placeholders only. -/
theorem failsOnly_lift {P : CompileError → Prop} (registry : Registry)
    {onColumn : String → Except CompileError GroupExpr} {e : Expr}
    (column : ∀ name, .column name ∈ e.outside registry → FailsOnly P (onColumn name))
    (placeholder : ∀ name, .placeholder name ∈ e.nodes → P (.unresolvedPlaceholder name)) :
    RunFailsOnly P (lift registry onColumn e) := by
  induction e with
  | literal value => exact .pure _
  | column name => exact .lift (column name (by simp))
  | placeholder name => exact .throw (placeholder name (by simp))
  | binary op left right ihl ihr =>
    refine (ihl (fun name member => column name (by simp [member]))
      fun name member => placeholder name (by simp [member])).bind fun l => ?_
    exact (ihr (fun name member => column name (by simp [member]))
      fun name member => placeholder name (by simp [member])).bind fun _ => .pure _
  | unary op operand ih =>
    exact (ih (fun name member => column name (by simp [member]))
      fun name member => placeholder name (by simp [member])).bind fun _ => .pure _
  | inList operand items negated ih ihs =>
    rw [lift, liftEach_eq]
    refine (ih (fun name member => column name (by simp [member]))
      fun name member => placeholder name (by simp [member])).bind fun _ => ?_
    refine (RunFailsOnly.mapM fun item listed => ihs item listed (fun name member => ?_)
      fun name member => ?_).bind fun _ => .pure _
    · exact column name (Expr.mem_outside_inList.mpr (.inr (.inr ⟨item, listed, member⟩)))
    · exact placeholder name (Expr.mem_nodes_inList.mpr (.inr (.inr ⟨item, listed, member⟩)))
  | call name args ihs =>
    rw [lift, liftEach_eq]
    split
    · exact (failsOnly_intern P _).bind fun _ => .pure _
    · rename_i absent
      have scalar := isAggregate_of_aggregate?_none absent
      refine (RunFailsOnly.mapM fun arg listed => ihs arg listed (fun name member => ?_)
        fun name member => ?_).bind fun _ => .pure _
      · exact column name (Expr.mem_outside_call.mpr (.inr ⟨scalar, arg, listed, member⟩))
      · exact placeholder name (Expr.mem_nodes_call.mpr (.inr ⟨arg, listed, member⟩))

theorem lifts_lift {registry : Registry} {onColumn : String → Except CompileError GroupExpr}
    {P : String → Prop} {e : Expr} {x : GroupExpr} {calls calls' : List AggregateCall}
    (ok : (lift registry onColumn e).run calls = .ok (x, calls'))
    (reads : ∀ name ∈ e.columns, P name) (before : ReadOnly P calls) :
    ReadOnly P calls' ∧ Lifts registry (LiftedLeaf onColumn) e x := by
  refine lift_induction (R := fun e calls x calls' => (∀ name ∈ e.columns, P name) →
    ReadOnly P calls → ReadOnly P calls' ∧ Lifts registry (LiftedLeaf onColumn) e x)
    ?column ?aggregate ?operation ok reads before
  case column => exact fun name x calls found _ before => ⟨before, .leaf rfl (.column found)⟩
  case aggregate =>
    intro name args func index first last found interned reads before
    exact ⟨readOnly_intern interned (columns_head? reads) before,
      .leaf (isAggregate_of_aggregate? found) (.aggregate name args index)⟩
  case operation =>
    intro e x first last same runs reads before
    obtain ⟨after, lifts⟩ := runs.invariant (fun part child y u v ih before =>
      ih (fun name named => reads name (Expr.columns_subset_of_child child named)) before) before
    exact ⟨after, .operation same lifts⟩

end Rollup
