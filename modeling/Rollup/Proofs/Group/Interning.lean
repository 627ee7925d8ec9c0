import Rollup.Proofs.Analysis
import Rollup.Proofs.Expr.Equality

/-! Equal aggregate calls have one place.

The aggregates of a query are collected in a list in which no two are equal. A call keeps its place
when others are added, so what it was lifted to stays right: every call of a selector or of a filter
refers to the one aggregate that is equal to it, and two calls refer to the same one exactly if they
call the same function with equal arguments.
-/

set_option autoImplicit false

namespace Rollup

/-! ## Equal calls -/

instance : EquivBEq (Option Expr) where
  symm {a b} equal := by
    cases a <;> cases b <;> first | exact equal | exact BEq.symm (α := Expr) equal
  trans {a b c} first second := by
    cases a <;> cases b <;> cases c <;>
      first | exact second | cases first | cases second | exact BEq.trans (α := Expr) first second

namespace AggregateCall

theorem beq_iff {k l : AggregateCall} :
    (k == l) = true ↔ k.func = l.func ∧ (k.arg == l.arg) = true := by
  have test : (k == l) = (k.func == l.func && k.arg == l.arg) := rfl
  rw [test, Bool.and_eq_true, beq_iff_eq]

instance : EquivBEq AggregateCall where
  rfl := beq_iff.mpr ⟨rfl, BEq.rfl⟩
  symm equal := by
    obtain ⟨func, arg⟩ := beq_iff.mp equal
    exact beq_iff.mpr ⟨func.symm, BEq.symm arg⟩
  trans first second := by
    obtain ⟨func, arg⟩ := beq_iff.mp first
    obtain ⟨func', arg'⟩ := beq_iff.mp second
    exact beq_iff.mpr ⟨func.trans func', BEq.trans arg arg'⟩

def Different (calls : List AggregateCall) : Prop := calls.Pairwise fun k l => (k == l) = false

/-- The aggregate at a place is equal to a call. -/
def InternedAt (calls : List AggregateCall) (call : AggregateCall) (index : Nat) : Prop :=
  ∃ kept, calls[index]? = some kept ∧ (kept == call) = true

variable {calls calls' : List AggregateCall} {k l : AggregateCall} {i j : Nat}

theorem InternedAt.mono (interned : InternedAt calls k i) (kept : calls <+: calls') :
    InternedAt calls' k i := by
  obtain ⟨call, found, equal⟩ := interned
  obtain ⟨bound, rfl⟩ := List.getElem?_eq_some_iff.mp found
  exact ⟨calls[i], List.prefix_iff_getElem?.mp kept i bound, equal⟩

theorem InternedAt.place_iff (different : Different calls) (first : InternedAt calls k i)
    (second : InternedAt calls l j) : i = j ↔ k.func = l.func ∧ (k.arg == l.arg) = true := by
  obtain ⟨kept, found, equal⟩ := first
  obtain ⟨kept', found', equal'⟩ := second
  rw [← beq_iff]
  constructor
  · rintro rfl
    obtain rfl := Option.some.inj (found.symm.trans found')
    exact BEq.trans (BEq.symm equal) equal'
  · intro same
    have across : (kept == kept') = true := BEq.trans (BEq.trans equal same) (BEq.symm equal')
    exact place_unique different found found' across

end AggregateCall

open AggregateCall (Different InternedAt)

/-! ## Collecting -/

/-- Aggregates are added behind those that were collected, and none of them is equal to another. -/
structure Extends (first last : List AggregateCall) : Prop where
  kept : first <+: last
  different : Different first → Different last

theorem Extends.refl (calls : List AggregateCall) : Extends calls calls := ⟨List.prefix_rfl, id⟩

theorem Extends.trans {first middle last : List AggregateCall} (one : Extends first middle)
    (two : Extends middle last) : Extends first last :=
  ⟨one.kept.trans two.kept, fun start => two.different (one.different start)⟩

/-- What is known of results and stays right while aggregates are added is known of all results of a
run. -/
theorem Extends.of_runs {α β : Type} {as : List α} {bs : List β} {first last : List AggregateCall}
    {step : α → List AggregateCall → β → List AggregateCall → Prop}
    {G : List AggregateCall → α → β → Prop} (runs : Runs step as first bs last)
    (each : ∀ {a u b v}, step a u b v → Extends u v ∧ G v a b)
    (mono : ∀ {calls calls' a b}, G calls a b → calls <+: calls' → G calls' a b) :
    Extends first last ∧ List.Forall₂ (G last) as bs :=
  runs.grows .refl (fun _ _ _ => .trans) (fun _ _ _ _ more good => mono good more.kept)
    fun _ _ _ _ _ => each

theorem extends_intern {call : AggregateCall} {first last : List AggregateCall} {index : Nat}
    (ok : (intern call).run first = .ok (index, last)) :
    Extends first last ∧ InternedAt last call index := by
  simp only [intern, StateT.run] at ok
  split at ok
  · rename_i place found
    cases ok
    obtain ⟨bound, is, -⟩ := List.findIdx?_eq_some_iff_getElem.mp found
    exact ⟨.refl _, first[index], List.getElem?_eq_getElem bound, is⟩
  · rename_i absent
    cases ok
    refine ⟨⟨List.prefix_append _ _, fun start => ?_⟩, call, List.getElem?_concat_length, BEq.rfl⟩
    refine List.pairwise_append.mpr ⟨start, List.pairwise_singleton _ _, fun k old l new => ?_⟩
    obtain rfl := List.mem_singleton.mp new
    exact List.findIdx?_eq_none_iff.mp absent k old

/-! ## Lifting -/

inductive InternedLeaf (registry : Registry) (onColumn : String → Except CompileError GroupExpr)
    (calls : List AggregateCall) : Expr → GroupExpr → Prop where
  | column {name : String} {x : GroupExpr} :
      onColumn name = .ok x → InternedLeaf registry onColumn calls (.column name) x
  | aggregate {name : String} {args : List Expr} {func : Aggregate} {index : Nat} :
      registry.aggregate? name = some func → InternedAt calls ⟨func, args.head?⟩ index →
        InternedLeaf registry onColumn calls (.call name args) (.reference (.aggregate index))

/-- An expression that is lifted so that each of its aggregate calls refers to the aggregate that is
equal to it. -/
def Interns (registry : Registry) (onColumn : String → Except CompileError GroupExpr)
    (calls : List AggregateCall) : Expr → GroupExpr → Prop :=
  Lifts registry (InternedLeaf registry onColumn calls)

section
variable {registry : Registry} {onColumn : String → Except CompileError GroupExpr} {e : Expr}
  {x : GroupExpr} {calls calls' first last : List AggregateCall}

theorem Interns.mono (interns : Interns registry onColumn calls e x) (kept : calls <+: calls') :
    Interns registry onColumn calls' e x := by
  refine Lifts.imp interns fun e x leaf => ?_
  cases leaf with
  | column found => exact .column found
  | aggregate found interned => exact .aggregate found (interned.mono kept)

theorem interns_lift (ok : (lift registry onColumn e).run first = .ok (x, last)) :
    Extends first last ∧ Interns registry onColumn last e x := by
  refine lift_induction (R := fun e first x last => Extends first last ∧
    Interns registry onColumn last e x)
    ?column ?aggregate ?operation ok
  case column => exact fun name x calls found => ⟨.refl calls, .leaf rfl (.column found)⟩
  case aggregate =>
    intro name args func index first last found run
    obtain ⟨more, interned⟩ := extends_intern run
    exact ⟨more, .leaf (isAggregate_of_aggregate? found) (.aggregate found interned)⟩
  case operation =>
    intro e x first last same runs
    obtain ⟨more, operands⟩ := Extends.of_runs runs id Interns.mono
    exact ⟨more, .operation same operands⟩

theorem interns_liftOutput {keys : List GroupKey} {selected : Selected} {output : Output}
    (ok : (liftOutput registry keys selected).run first = .ok (output, last)) :
    Extends first last ∧
      Interns registry (keyReference keys selected.expr) last selected.expr output.expr := by
  simp only [liftOutput, run_bind_eq_ok, run_pure_eq_ok] at ok
  obtain ⟨x, last, ok, rfl, rfl⟩ := ok
  exact interns_lift ok

end

/-! ## Conditions -/

namespace FilterScope
variable {scope : FilterScope} {e : Expr} {x : GroupExpr}
  {calls calls' first last : List AggregateCall}

/-- What the leaves of a condition turn into where aggregate calls are interned: an output is what
its selector was lifted to, a derived column and a call are lifted as they are resolved. -/
inductive InternedLeaf (scope : FilterScope) (calls : List AggregateCall) :
    Expr → GroupExpr → Prop where
  | placeholder (name : String) (value : Literal) :
      InternedLeaf scope calls (.placeholder name) (.literal value)
  | stored {name : String} : scope.resolver.schema.isStored name = true →
      InternedLeaf scope calls (.column name) (.reference (.column name))
  | output {name : String} {index : Nat} {output : Output} :
      scope.outputPlace? name = some index → scope.outputs[index]? = some output →
        InternedLeaf scope calls (.column name) (output.asOperand index)
  | derived {name : String} {definition : Expr} {x : GroupExpr} :
      scope.definition? name = some definition →
        Interns scope.resolver.registry rowColumn calls definition x →
          InternedLeaf scope calls (.column name) x
  | aggregate {name : String} {args args' : List Expr} {func : Aggregate} {index : Nat} :
      scope.resolver.resolve (.call name args) = .ok (.call name args') →
        scope.resolver.registry.aggregate? name = some func →
          InternedAt calls ⟨func, args'.head?⟩ index →
            InternedLeaf scope calls (.call name args) (.reference (.aggregate index))

def Interns (scope : FilterScope) (calls : List AggregateCall) : Expr → GroupExpr → Prop :=
  Lifts scope.resolver.registry (scope.InternedLeaf calls)

theorem Interns.mono (interns : scope.Interns calls e x) (kept : calls <+: calls') :
    scope.Interns calls' e x := by
  refine Lifts.imp interns fun e x leaf => ?_
  cases leaf with
  | placeholder name value => exact .placeholder name value
  | stored is => exact .stored is
  | output place found => exact .output place found
  | derived defined interns => exact .derived defined (interns.mono kept)
  | aggregate resolved found interned => exact .aggregate resolved found (interned.mono kept)

theorem interns_liftName {name : String}
    (ok : (scope.liftName name).run first = .ok (x, last)) :
    Extends first last ∧ scope.InternedLeaf last (.column name) x := by
  cases named_liftName ok with
  | stored is => exact ⟨.refl first, .stored is⟩
  | output place found => exact ⟨.refl first, .output place found⟩
  | derived defined ok =>
    obtain ⟨resolved, resolves, ok⟩ := liftResolved_eq_ok.mp ok
    obtain rfl := Except.ok.inj ((resolve_of_definition? defined).symm.trans resolves)
    obtain ⟨more, interns⟩ := interns_lift ok
    exact ⟨more, .derived defined interns⟩

/-- A resolved aggregate is a call of the same function, so it is lifted to one reference. -/
theorem interns_aggregate {name : String} {args : List Expr} {func : Aggregate}
    (found : scope.resolver.registry.aggregate? name = some func)
    (ok : (scope.liftResolved (.call name args)).run first = .ok (x, last)) :
    Extends first last ∧ scope.InternedLeaf last (.call name args) x := by
  obtain ⟨resolved, resolves, ok⟩ := liftResolved_eq_ok.mp ok
  obtain ⟨args', rfl⟩ := Resolver.resolve_call resolves
  obtain ⟨more, interns⟩ := interns_lift ok
  refine ⟨more, ?_⟩
  cases interns with
  | leaf _ leaf =>
    cases leaf with
    | aggregate found interned => exact .aggregate resolves found interned
  | call _ scalar _ => cases scalar.symm.trans (isAggregate_of_aggregate? found)

theorem interns_liftExpr (ok : (scope.liftExpr e).run first = .ok (x, last)) :
    Extends first last ∧ scope.Interns last e x := by
  refine liftExpr_induction (R := fun e first x last => Extends first last ∧
    scope.Interns last e x)
    ?column ?placeholder ?aggregate ?operation ok
  case column =>
    intro name x first last ok
    obtain ⟨more, leaf⟩ := interns_liftName ok
    exact ⟨more, .leaf rfl leaf⟩
  case placeholder =>
    exact fun name value calls => ⟨.refl calls, .leaf rfl (.placeholder name value)⟩
  case aggregate =>
    intro name args func x first last found ok
    obtain ⟨more, leaf⟩ := interns_aggregate found ok
    exact ⟨more, .leaf (isAggregate_of_aggregate? found) leaf⟩
  case operation =>
    intro e x first last same _ runs
    obtain ⟨more, operands⟩ := Extends.of_runs runs id Interns.mono
    exact ⟨more, .operation same operands⟩

/-- A condition that is its conjunct with the aggregate calls interned. Columns may stand for the
group keys that they are. -/
def InternsCondition (scope : FilterScope) (calls : List AggregateCall) (conjunct : Expr)
    (condition : Condition) : Prop :=
  ∃ x g, scope.Interns calls conjunct x ∧ condition.expr = x.substitute g ∧
    ∀ target ∈ x.references, g target = .reference target ∨ ∃ name index, target = .column name ∧
      keyOf? scope.keys name = some index ∧ g target = .reference (.key index)

theorem InternsCondition.mono {conjunct : Expr} {condition : Condition}
    (interns : scope.InternsCondition calls conjunct condition) (kept : calls <+: calls') :
    scope.InternsCondition calls' conjunct condition := by
  obtain ⟨x, g, interns, placed⟩ := interns
  exact ⟨x, g, interns.mono kept, placed⟩

theorem interns_liftCondition {conjunct : Expr} {condition : Condition}
    (ok : (scope.liftCondition conjunct).run first = .ok (condition, last)) :
    Extends first last ∧ scope.InternsCondition last conjunct condition := by
  simp only [liftCondition, run_bind_eq_ok] at ok
  obtain ⟨x, middle, lifted, ok⟩ := ok
  obtain ⟨more, interns⟩ := interns_liftExpr lifted
  split at ok
  · obtain ⟨rfl, rfl⟩ := run_pure_eq_ok.mp ok
    have kept := GroupExpr.substitute_eq_self (f := .reference) (e := x) fun _ _ => rfl
    exact ⟨more, x, .reference, interns, kept.symm, fun _ _ => .inl rfl⟩
  · simp only [run_bind_eq_ok] at ok
    obtain ⟨y, end_, run, ok⟩ := ok
    obtain ⟨rfl, rfl⟩ := run_pure_eq_ok.mp ok
    obtain ⟨placed, rfl⟩ := run_lift_eq_ok.mp run
    obtain ⟨g, given, rfl⟩ := GroupExpr.substitute_of_substituteM placed
    refine ⟨more, x, g, interns, rfl, fun target member => ?_⟩
    have found := given target member
    unfold groupReference at found
    split at found
    · split at found
      · rename_i keyed
        exact .inr ⟨_, _, rfl, keyed, (Except.ok.inj found).symm⟩
      · cases found
    · exact .inl (Except.ok.inj found).symm

end FilterScope

/-! ## Queries -/

/-- Every aggregate call of the resolved selectors and of the filter refers to the aggregate that is
equal to it, and calls share an aggregate exactly if they call one function with equal arguments. -/
structure Analysis.Interned (c : Compiler) (query : Query) (seconds : Option Int) (a : Analysis) :
    Prop where
  selectors : ∃ selected,
    query.selectors.mapM (Compiler.select ⟨c.schema, c.registry, seconds⟩) = .ok selected ∧
      List.Forall₂ (fun one output =>
        Interns c.registry (keyReference a.keys one.expr) a.calls one.expr output.expr)
        selected a.outputs
  filter : List.Forall₂ ((c.filterScope seconds a.keys a.outputs).InternsCondition a.calls)
    query.conjuncts a.conditions
  places : ∀ k l i j, InternedAt a.calls k i → InternedAt a.calls l j →
    (i = j ↔ k.func = l.func ∧ (k.arg == l.arg) = true)

namespace Compiler
variable {c : Compiler} {query : Query} {seconds : Option Int}

theorem interns_selection {s : Selection} {resolver : Resolver}
    (ok : c.selection query resolver = .ok s) :
    Different s.calls ∧ ∃ selected, query.selectors.mapM (select resolver) = .ok selected ∧
      List.Forall₂ (fun one output =>
        Interns c.registry (keyReference s.keys one.expr) s.calls one.expr output.expr)
        selected s.outputs := by
  simp only [selection, bind_eq_ok, pure_eq_ok] at ok
  obtain ⟨selected, selects, keys, -, ⟨outputs, calls⟩, lifted, names, -, rfl⟩ := ok
  obtain ⟨more, each⟩ := Extends.of_runs (mapM_run_eq_ok.mp lifted)
    (G := fun calls one output =>
      Interns c.registry (keyReference keys one.expr) calls one.expr output.expr)
    interns_liftOutput Interns.mono
  exact ⟨more.different .nil, selected, selects, each⟩

theorem interned_analyze {a : Analysis}
    (ok : c.analyze query ⟨c.schema, c.registry, seconds⟩ = .ok a) :
    Different a.calls ∧ a.Interned c query seconds := by
  obtain ⟨s, selects, keys, outputs, -, tests⟩ := analyze_eq_ok ok
  obtain ⟨start, selected, chosen, each⟩ := interns_selection selects
  rw [← keys, ← outputs] at tests each
  obtain ⟨more, conditions⟩ := Extends.of_runs (runs_conditions tests)
    FilterScope.interns_liftCondition FilterScope.InternsCondition.mono
  have different := more.different start
  exact ⟨different, ⟨selected, chosen, each.imp fun _ _ interns => interns.mono more.kept⟩,
    conditions, fun _ _ _ _ => InternedAt.place_iff different⟩

end Compiler

end Rollup
