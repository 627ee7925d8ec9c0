import Rollup.Proofs.Compile.Part
import Rollup.Proofs.Group.Interning
import Rollup.Proofs.Group.Shared

/-! The parts of an expression go where it goes, further on.

Outside of aggregates the parts of an expression are lifted inside of what the whole is lifted to.
What is in an argument of an aggregate is in the argument of the aggregate that was collected, up to
equal literals. Keys are put in the place of columns in every part alike, and what is taken out
because outputs share it is still there, among what they share.
-/

set_option autoImplicit false

namespace Rollup

open AggregateCall (InternedAt)

namespace GroupExpr
variable {P : GroupExpr → Prop} {e a b node part whole : GroupExpr} {f : Reference → GroupExpr}

/-! ## Equal expressions -/

theorem children_of_same (equal : a.same b = true) :
    List.Forall₂ (fun x y => x.same y = true) a.children b.children := by
  cases same_iff.mp equal with
  | reference | literal => exact .nil
  | binary first second => exact .cons (same_iff.mpr first) (.cons (same_iff.mpr second) .nil)
  | unary inner => exact .cons (same_iff.mpr inner) .nil
  | inList inner each => exact .cons (same_iff.mpr inner) (each.imp fun _ _ => same_iff.mpr)
  | call each => exact each.imp fun _ _ => same_iff.mpr

/-! ## Substitution -/

theorem children_substitute (plain : e.target? = none) :
    (e.substitute f).children = e.children.map (substitute f) := by
  rw [substitute_eq plain, children_withOperands (List.length_map ..)]

theorem children_of_substituteM {ε : Type} {f : Reference → Except ε GroupExpr}
    (plain : e.target? = none) {x : GroupExpr} (ok : e.substituteM f = .ok x) :
    List.Forall₂ (fun part y => part.substituteM f = .ok y) e.children x.children := by
  obtain ⟨es, oks, rfl⟩ := (substituteM_eq_ok plain).mp ok
  rwa [children_withOperands oks.length_eq.symm]

theorem part_of_substituteM {ε : Type} {f : Reference → Except ε GroupExpr} {x : GroupExpr}
    (ok : e.substituteM f = .ok x) :
    ∀ node ∈ e.nodes, ∃ y ∈ x.nodes, node.substituteM f = .ok y := by
  refine forall_nodes ⟨x, self_mem_nodes, ok⟩ ?_
  rintro whole ⟨y, within, ok⟩ part child
  have plain : whole.target? = none := by cases whole <;> first | rfl | cases child
  obtain ⟨z, listed, ok⟩ := related_of_mem_left (children_of_substituteM plain ok) child
  exact ⟨z, child_mem_nodes within listed, ok⟩

/-! ## Shared expressions -/

/-- Whether an expression is the place of a shared one. -/
def isPlaceholder : GroupExpr → Bool
  | .reference (.shared _) => true
  | _ => false

/-- An expression is what is left of another one, or what a part of it is shared as. -/
def PartOf (found : List GroupExpr) (rest part : GroupExpr) : Prop :=
  part ∈ rest.nodes ∨ ∃ shared ∈ found, part ∈ shared.nodes

theorem PartOf.child {found : List GroupExpr} {rest : GroupExpr} (within : PartOf found rest whole)
    (child : part ∈ whole.children) : PartOf found rest part :=
  within.imp (child_mem_nodes · child) fun ⟨shared, listed, within⟩ =>
    ⟨shared, listed, child_mem_nodes within child⟩

theorem part_of_unshare {found : List GroupExpr} (plain : e.isPlain)
    (kept : ∀ shared ∈ found, shared.isPlain ∧ shared.isCompound = true) {rest : GroupExpr}
    (same : (rest.unshare found).same e = true) :
    ∀ node ∈ e.nodes, ∃ part, PartOf found rest part ∧ part.isPlaceholder = false ∧
      (part.unshare found).same node = true := by
  -- The place of a shared expression is left for the expression itself, which has no such places.
  have written : ∀ {part : GroupExpr}, ∀ node ∈ e.nodes, PartOf found rest part →
      (part.unshare found).same node = true → ∃ part, PartOf found rest part ∧
        part.isPlaceholder = false ∧ (part.unshare found).same node = true := by
    intro part node member within same
    by_cases place : part.isPlaceholder = true
    · cases part with
      | reference target =>
        cases target with
        | shared index =>
          rw [unshare, substitute_reference, definitionIn] at same
          cases there : found[index]? with
          | none =>
            rw [there] at same
            have refers : .shared index ∈ node.references := references_of_same same ▸ by simp
            have inside := List.filterMap_subset target? (nodes_subset member)
            exact absurd (inside refers) (plain index)
          | some shared =>
            rw [there] at same
            have listed := List.mem_of_getElem? there
            obtain ⟨plain, compound⟩ := kept shared listed
            refine ⟨shared, .inr ⟨shared, listed, self_mem_nodes⟩, ?_, ?_⟩
            · cases shared <;> first | rfl | cases compound
            · rw [unshare_eq_self plain]
              exact same
        | _ => cases place
      | _ => cases place
    · exact ⟨part, within, by simpa using place, same⟩
  suffices each : ∀ node ∈ e.nodes, node ∈ e.nodes ∧ ∃ part, PartOf found rest part ∧
      part.isPlaceholder = false ∧ (part.unshare found).same node = true from
    fun node member => (each node member).2
  refine forall_nodes ⟨self_mem_nodes, written e self_mem_nodes (.inl self_mem_nodes) same⟩ ?_
  rintro whole ⟨member, rest, within, place, same⟩ part child
  have inside := child_mem_nodes member child
  refine ⟨inside, ?_⟩
  have inner : rest.target? = none := by
    cases rest with
    | reference target =>
      cases target with
      | shared index => cases place
      | _ => cases same_iff.mp same with | reference => cases child
    | _ => rfl
  have each := children_of_same same
  rw [unshare, children_substitute inner, List.forall₂_map_left_iff] at each
  obtain ⟨operand, listed, same⟩ := related_of_mem_right each child
  exact written part inside (within.child listed) same

end GroupExpr

/-! ## Lifting -/

/-- A computation gives a result on the way to the aggregates of a query. -/
def Collects {α : Type} (calls : List AggregateCall) (m : Collecting α) (x : α) : Prop :=
  ∃ first last, m.run first = .ok (x, last) ∧ last <+: calls

theorem Collects.mono {α : Type} {calls calls' : List AggregateCall} {m : Collecting α} {x : α}
    (collects : Collects calls m x) (more : calls <+: calls') : Collects calls' m x := by
  obtain ⟨first, last, run, kept⟩ := collects
  exact ⟨first, last, run, kept.trans more⟩

section
variable {registry : Registry} {f : Expr → Collecting GroupExpr} {e : Expr} {x : GroupExpr}
  {calls first last : List AggregateCall}

/-- A way to take aggregates out of expressions that adds to those that were collected before. -/
structure Collector (registry : Registry) (f : Expr → Collecting GroupExpr) : Prop
    extends Descends registry f where
  adds {e : Expr} {x : GroupExpr} {first last : List AggregateCall} :
    (f e).run first = .ok (x, last) → Extends first last

theorem collector_lift (onColumn : String → Except CompileError GroupExpr) :
    Collector registry (lift registry onColumn) where
  toDescends := descends_lift registry onColumn
  adds ok := (interns_lift ok).1

theorem collector_liftExpr (scope : FilterScope) :
    Collector scope.resolver.registry scope.liftExpr where
  toDescends := scope.descends_liftExpr
  adds ok := (FilterScope.interns_liftExpr ok).1

theorem Collector.part (collector : Collector registry f) (collects : Collects calls (f e) x) :
    ∀ node ∈ e.outside registry, ∃ y ∈ x.nodes, Collects calls (f node) y := by
  refine Expr.forall_walk ⟨x, GroupExpr.self_mem_nodes, collects⟩ ?_
  rintro whole ⟨y, within, first, last, run, kept⟩ enters part child
  have inner := Expr.isLeaf_of_child (by simpa using enters) child
  obtain ⟨-, each⟩ := Extends.of_runs (collector.operands inner run).2
    (G := fun calls part y => Collects calls (f part) y)
    (fun ok => ⟨collector.adds ok, _, _, ok, List.prefix_rfl⟩) Collects.mono
  obtain ⟨z, listed, collects⟩ := related_of_mem_left each child
  exact ⟨z, GroupExpr.child_mem_nodes within listed, collects.mono kept⟩

/-! ## Arguments of aggregates -/

/-- An expression is equal to a part of the argument of an aggregate. -/
def IsArgument (calls : List AggregateCall) (e : Expr) : Prop :=
  ∃ call ∈ calls, ∃ arg, call.arg = some arg ∧ ∃ part ∈ arg.nodes, part.same e = true

def Registry.SingleArguments (registry : Registry) : Prop :=
  ∀ spec ∈ registry.specs, spec.aggregate?.isSome = true → spec.maxArgs ≤ 1

theorem singleArguments_builtin : Registry.builtin.SingleArguments := by
  unfold Registry.SingleArguments
  decide

theorem isArgument_of_internedAt {func : Aggregate} {arg node : Expr} {index : Nat}
    (interned : InternedAt calls ⟨func, some arg⟩ index) (member : node ∈ arg.nodes) :
    IsArgument calls node := by
  obtain ⟨call, found, equal⟩ := interned
  have same := (AggregateCall.beq_iff.mp equal).2
  cases given : call.arg with
  | none =>
    rw [given] at same
    cases same
  | some kept =>
    rw [given] at same
    exact ⟨call, List.mem_of_getElem? found, kept, given, Expr.part_of_same same node member⟩

theorem isArgument_of_call {onColumn : String → Except CompileError GroupExpr} {name : String}
    {args : List Expr} {arg node : Expr} {spec : FunctionSpec} (single : registry.SingleArguments)
    (found : registry.get? name = some spec) (accepts : spec.accepts args.length = true)
    (is : registry.isAggregate name = true)
    (collects : Collects calls (lift registry onColumn (.call name args)) x)
    (listed : arg ∈ args) (member : node ∈ arg.nodes) : IsArgument calls node := by
  obtain ⟨func, aggregate⟩ := Option.isSome_iff_exists.mp is
  have one : args = [arg] := by
    have aggregated : spec.aggregate? = some func := by
      simpa [Registry.aggregate?, found] using aggregate
    have most := single spec (List.mem_of_find?_eq_some found) (by rw [aggregated]; rfl)
    have taken : args.length ≤ spec.maxArgs := by
      simp only [FunctionSpec.accepts, Bool.and_eq_true, decide_eq_true_eq] at accepts
      exact accepts.2
    have some_ := List.length_pos_of_mem listed
    obtain ⟨only, rfl⟩ := List.length_eq_one_iff.mp (show args.length = 1 by omega)
    rw [List.mem_singleton.mp listed]
  obtain ⟨first, last, run, kept⟩ := collects
  simp only [lift, aggregate, run_bind_eq_ok, run_pure_eq_ok] at run
  obtain ⟨index, end_, run, -, rfl⟩ := run
  rw [one] at run
  exact isArgument_of_internedAt ((extends_intern run).2.mono kept) member

theorem lifted_or_argument {onColumn : String → Except CompileError GroupExpr}
    (single : registry.SingleArguments)
    (accepted : ∀ name args, .call name args ∈ e.nodes →
      ∃ spec, registry.get? name = some spec ∧ spec.accepts args.length = true)
    (collects : Collects calls (lift registry onColumn e) x) {node : Expr}
    (member : node ∈ e.nodes) :
    (∃ y ∈ x.nodes, Collects calls (lift registry onColumn node) y) ∨ IsArgument calls node := by
  rcases Expr.outside_or_argument registry member with
    out | ⟨name, args, arg, called, is, listed, member⟩
  · exact .inl ((collector_lift onColumn).part collects node out)
  · obtain ⟨y, -, lifted⟩ := (collector_lift onColumn).part collects _ called
    obtain ⟨spec, found, accepts⟩ := accepted name args (Expr.outside_subset_nodes called)
    exact .inr (isArgument_of_call single found accepts is lifted listed member)

end

/-! ## Filters -/

namespace FilterScope
variable {scope : FilterScope} {calls first last : List AggregateCall} {e node : Expr}
  {x placed : GroupExpr} {condition : Condition}

/-- A part of a filter that is resolved on its own: the name of a derived column, or a call of an
aggregate. -/
def IsResolved (scope : FilterScope) : Expr → Prop
  | .column name => (scope.definition? name).isSome = true
  | .call name _ => scope.resolver.registry.isAggregate name = true
  | _ => False

theorem resolved_of_liftExpr (is : scope.IsResolved e)
    (collects : Collects calls (scope.liftExpr e) x) :
    ∃ resolved, scope.resolver.resolve e = .ok resolved ∧
      Collects calls (lift scope.resolver.registry rowColumn resolved) x := by
  obtain ⟨first, last, run, kept⟩ := collects
  suffices run : (scope.liftResolved e).run first = .ok (x, last) by
    obtain ⟨resolved, resolves, run⟩ := liftResolved_eq_ok.mp run
    exact ⟨resolved, resolves, first, last, run, kept⟩
  cases e with
  | column name =>
    rw [liftExpr] at run
    cases named_liftName run with
    | stored stored => simp [IsResolved, definition?, stored] at is
    | output place _ => simp [IsResolved, definition?, place] at is
    | derived _ run => exact run
  | call name args =>
    rw [liftExpr] at run
    split at run
    · cases run
    · rename_i spec found
      split at run
      · exact run
      · rename_i kind
        simp [IsResolved, Registry.isAggregate, Registry.aggregate?, found,
          FunctionSpec.aggregate?, kind] at is
  | _ => cases is

/-- What an expression is where a condition is tested: itself in single rows, and with keys in the
place of columns behind the groups. -/
def Places (scope : FilterScope) (condition : Condition) (x placed : GroupExpr) : Prop :=
  if condition.level = .row then placed = x
  else x.substituteM (scope.groupReference condition.text) = .ok placed

theorem part_of_places (places : scope.Places condition x placed) :
    ∀ node ∈ x.nodes, ∃ y ∈ placed.nodes, scope.Places condition node y := by
  unfold Places at places ⊢
  split at places
  · rename_i row
    subst places
    exact fun node member => ⟨node, member, by simp [row]⟩
  · rename_i late
    simp only [late, if_false]
    exact GroupExpr.part_of_substituteM places

theorem places_liftCondition (ok : (scope.liftCondition e).run first = .ok (condition, last)) :
    Extends first last ∧ ∃ x, Collects last (scope.liftExpr e) x ∧
      scope.Places condition x condition.expr := by
  refine ⟨(interns_liftCondition ok).1, ?_⟩
  simp only [liftCondition, run_bind_eq_ok] at ok
  obtain ⟨x, middle, lifted, ok⟩ := ok
  split at ok
  · obtain ⟨rfl, rfl⟩ := run_pure_eq_ok.mp ok
    exact ⟨x, ⟨first, middle, lifted, List.prefix_rfl⟩, by simp [Places]⟩
  · rename_i late
    simp only [run_bind_eq_ok] at ok
    obtain ⟨y, end_, run, ok⟩ := ok
    obtain ⟨rfl, rfl⟩ := run_pure_eq_ok.mp ok
    obtain ⟨placed, rfl⟩ := run_lift_eq_ok.mp run
    refine ⟨x, ⟨first, middle, lifted, List.prefix_rfl⟩, ?_⟩
    rw [Places, if_neg late]
    exact placed

end FilterScope

/-! ## Queries -/

namespace Compiler
variable {c : Compiler} {query : Query} {seconds : Option Int} {a : Analysis}

theorem output_of_selector
    (ok : c.analyze query ⟨c.schema, c.registry, seconds⟩ = .ok a) {selector : Selector}
    (member : selector ∈ query.selectors) :
    ∃ output ∈ a.outputs, ∃ resolved whole,
      Resolver.resolve ⟨c.schema, c.registry, seconds⟩ selector.expr = .ok resolved ∧
      Collects a.calls (lift c.registry (keyReference a.keys whole)
        (Resolver.aggregateMetrics ⟨c.schema, c.registry, seconds⟩ resolved)) output.expr := by
  obtain ⟨s, selects, keys, outputs, -, tests⟩ := analyze_eq_ok ok
  simp only [selection, bind_eq_ok, pure_eq_ok] at selects
  obtain ⟨selected, selects, keys', -, ⟨lifted, calls⟩, lifts, names, -, rfl⟩ := selects
  obtain ⟨one, among, chosen⟩ := related_of_mem_left (mapM_eq_ok.mp selects) member
  obtain ⟨-, resolved, resolves, same⟩ := select_eq_ok chosen
  obtain ⟨-, each⟩ := Extends.of_runs (mapM_run_eq_ok.mp lifts)
    (G := fun calls one output => Collects calls
      (lift c.registry (keyReference keys' one.expr) one.expr) output.expr)
    (fun ok => by
      simp only [liftOutput, run_bind_eq_ok, run_pure_eq_ok] at ok
      obtain ⟨x, last, ok, rfl, rfl⟩ := ok
      exact ⟨(interns_lift ok).1, _, _, ok, List.prefix_rfl⟩) Collects.mono
  obtain ⟨more, -⟩ := Extends.of_runs (runs_conditions tests)
    FilterScope.places_liftCondition
    fun found more => found.imp fun _ known => ⟨known.1.mono more, known.2⟩
  obtain ⟨output, listed, collects⟩ := related_of_mem_left each among
  refine ⟨output, outputs ▸ listed, resolved, one.expr, resolves, ?_⟩
  rw [keys, ← same]
  exact collects.mono more.kept

theorem condition_of_conjunct
    (ok : c.analyze query ⟨c.schema, c.registry, seconds⟩ = .ok a) {conjunct : Expr}
    (member : conjunct ∈ query.conjuncts) :
    ∃ condition ∈ a.conditions, ∃ x,
      Collects a.calls ((c.filterScope seconds a.keys a.outputs).liftExpr conjunct) x ∧
      (c.filterScope seconds a.keys a.outputs).Places condition x condition.expr := by
  obtain ⟨s, -, keys, outputs, -, tests⟩ := analyze_eq_ok ok
  rw [← keys, ← outputs] at tests
  obtain ⟨-, each⟩ := Extends.of_runs (runs_conditions tests)
    FilterScope.places_liftCondition
    fun found more => found.imp fun _ known => ⟨known.1.mono more, known.2⟩
  exact related_of_mem_left each member

end Compiler

end Rollup
