import Rollup.Proofs.Group.Call

/-! Which aggregates are called.

Lifting an expression collects the aggregates that the expression calls and no others, and puts
references to them in their places, in the same order. The aggregates of a filter are those that it
calls itself and those in the definitions of the derived columns that it names.
-/

set_option autoImplicit false

namespace Rollup

namespace Expr

/-- The aggregates that an expression calls. -/
def aggregates (registry : Registry) (e : Expr) : List Aggregate :=
  e.calls.filterMap registry.aggregate?

variable {registry : Registry}

theorem aggregates_binary (op : BinaryOp) (left right : Expr) :
    (binary op left right).aggregates registry =
      left.aggregates registry ++ right.aggregates registry := by
  rw [aggregates, calls, nodes_binary, List.filterMap_cons_none rfl, List.filterMap_append,
    List.filterMap_append]
  rfl

theorem aggregates_inList (operand : Expr) (items : List Expr) (negated : Bool) :
    (inList operand items negated).aggregates registry =
      operand.aggregates registry ++ items.flatMap (aggregates registry) := by
  rw [aggregates, calls, nodes_inList, List.filterMap_cons_none rfl, List.filterMap_append,
    List.filterMap_append, List.filterMap_flatMap, List.filterMap_flatMap]
  rfl

theorem aggregates_call (name : String) (args : List Expr) :
    (call name args).aggregates registry =
      (registry.aggregate? name).toList ++ args.flatMap (aggregates registry) := by
  have named : callName? (call name args) = some name := rfl
  rw [aggregates, calls, nodes_call, List.filterMap_cons_some named, List.filterMap_flatMap,
    List.filterMap_cons]
  cases registry.aggregate? name <;> simp [List.filterMap_flatMap] <;> rfl

theorem aggregates_eq {e : Expr} (scalar : e.isAggregateCall registry = false) :
    e.aggregates registry = e.children.flatMap (aggregates registry) := by
  cases e with
  | literal | column | placeholder => rfl
  | binary op left right => simp [aggregates_binary, children]
  | unary op operand => exact (List.flatMap_singleton ..).symm
  | inList operand items negated => simp [aggregates_inList, children]
  | call name args =>
    have absent : registry.aggregate? name = none := by
      simpa [isAggregateCall, Registry.isAggregate] using scalar
    rw [aggregates_call, absent]
    rfl

def IsUnnested (registry : Registry) (e : Expr) : Prop :=
  ∀ name args, .call name args ∈ e.nodes → registry.isAggregate name = true →
    args.flatMap (aggregates registry) = []

theorem IsUnnested.part {part e : Expr} (unnested : e.IsUnnested registry)
    (within : ∀ node ∈ part.nodes, node ∈ e.nodes) : part.IsUnnested registry :=
  fun name args member => unnested name args (within _ member)

theorem IsUnnested.aggregates_call {name : String} {args : List Expr} {func : Aggregate}
    (unnested : (call name args).IsUnnested registry)
    (found : registry.aggregate? name = some func) :
    (call name args).aggregates registry = [func] := by
  rw [Expr.aggregates_call, found,
    unnested name args (by simp) (isAggregate_of_aggregate? found)]
  rfl

theorem IsFlat.isUnnested {e : Expr} (flat : e.IsFlat registry) : e.IsUnnested registry := by
  intro name args member aggregate
  rcases flat name args member with scalar | ⟨-, inside⟩
  · rw [isAggregate_of_aggregate?_none (isAggregate_of_isScalar scalar)] at aggregate
    cases aggregate
  · refine List.flatMap_eq_nil_iff.mpr fun arg listed => ?_
    exact List.filterMap_eq_nil_iff.mpr fun other called =>
      isAggregate_of_isScalar (inside arg listed other called)

end Expr

theorem GroupExpr.aggregates_eq {e : GroupExpr} (plain : e.target? = none) :
    e.aggregates = e.children.flatMap aggregates := by
  rw [aggregates, references_eq plain, List.filterMap_flatMap]
  rfl

theorem Resolver.isUnnested_aggregateMetrics {r : Resolver} {e : Expr}
    (unnested : e.IsUnnested r.registry) : (r.aggregateMetrics e).IsUnnested r.registry := by
  intro name args member aggregate
  rcases r.mem_nodes_aggregateMetrics member with kept | ⟨origin, within, same⟩
  · exact unnested name args kept aggregate
  · rcases call_of_aggregateMetrics same.symm with
      rfl | ⟨column, metric, -, -, -, rfl⟩ | ⟨scalar, -⟩
    · exact unnested name args within aggregate
    · rfl
    · cases aggregate.symm.trans scalar

/-! ## Collecting -/

def functionAt? (calls : List AggregateCall) (index : Nat) : Option Aggregate :=
  (calls[index]?).map (·.func)

/-- How aggregates are collected for some functions, each of which gets a place. -/
structure Adds (first : List AggregateCall) (places : List Nat) (funcs : List Aggregate)
    (last : List AggregateCall) : Prop where
  kept : first <+: last
  called (func : Aggregate) :
    func ∈ last.map (·.func) ↔ func ∈ first.map (·.func) ∨ func ∈ funcs
  places : places.map (functionAt? last) = funcs.map some

namespace Adds
variable {first middle last : List AggregateCall} {places places' : List Nat}
  {funcs funcs' : List Aggregate}

theorem nil (calls : List AggregateCall) : Adds calls [] [] calls :=
  ⟨List.prefix_rfl, fun _ => by simp, rfl⟩

theorem places_of_prefix (kept : middle <+: last)
    (found : places.map (functionAt? middle) = funcs.map some) :
    places.map (functionAt? last) = funcs.map some := by
  induction places generalizing funcs with
  | nil => exact found
  | cons index rest ih =>
    cases funcs with
    | nil => cases found
    | cons func others =>
      obtain ⟨here, tail⟩ := List.cons.inj found
      obtain ⟨call, place, named⟩ := Option.map_eq_some_iff.mp here
      obtain ⟨added, rfl⟩ := kept
      have below := (List.getElem?_eq_some_iff.mp place).1
      rw [List.map_cons, List.map_cons, ih tail, functionAt?, List.getElem?_append_left below,
        place, Option.map_some, named]

theorem append (one : Adds first places funcs middle) (two : Adds middle places' funcs' last) :
    Adds first (places ++ places') (funcs ++ funcs') last where
  kept := one.kept.trans two.kept
  called func := by rw [two.called, one.called, List.mem_append, or_assoc]
  places := by
    rw [List.map_append, List.map_append, places_of_prefix two.kept one.places, two.places]

theorem intern {func : Aggregate} {arg : Option Expr} {index : Nat}
    (ok : (intern ⟨func, arg⟩).run first = .ok (index, last)) :
    Adds first [index] [func] last := by
  simp only [Rollup.intern, StateT.run] at ok
  split at ok
  · rename_i place found
    cases ok
    obtain ⟨below, equal, -⟩ := List.findIdx?_eq_some_iff_getElem.mp found
    -- Equal calls are calls of the same function.
    have same : (first[index]).func = func :=
      beq_iff_eq.mp (Bool.and_eq_true_iff.mp (equal : AggregateCall.same _ _ = true)).1
    have listed : func ∈ first.map (·.func) :=
      List.mem_map.mpr ⟨_, List.getElem_mem below, same⟩
    refine ⟨List.prefix_rfl, fun other => ⟨.inl, ?_⟩, ?_⟩
    · rintro (before | new)
      · exact before
      · exact List.mem_singleton.mp new ▸ listed
    · simp [functionAt?, List.getElem?_eq_getElem below, same]
  · cases ok
    refine ⟨List.prefix_append _ _, fun other => by simp, ?_⟩
    simp [functionAt?]

theorem of_runs {α β : Type} {as : List α} {bs : List β} {placesOf : β → List Nat}
    {funcsOf : α → List Aggregate}
    {step : α → List AggregateCall → β → List AggregateCall → Prop}
    (runs : Runs step as first bs last)
    (each : ∀ a ∈ as, ∀ b u v, step a u b v → Adds u (placesOf b) (funcsOf a) v) :
    Adds first (bs.flatMap placesOf) (as.flatMap funcsOf) last := by
  induction runs with
  | nil calls => exact .nil calls
  | cons head _ ih =>
    rw [List.flatMap_cons, List.flatMap_cons]
    exact (each _ List.mem_cons_self _ _ _ head).append
      (ih fun a member => each a (List.mem_cons_of_mem _ member))

theorem exists_of_runs {α β : Type} {as : List α} {bs : List β} {funcsOf : α → List Aggregate}
    {step : α → List AggregateCall → β → List AggregateCall → Prop}
    (runs : Runs step as first bs last)
    (each : ∀ a ∈ as, ∀ b u v, step a u b v → ∃ places, Adds u places (funcsOf a) v) :
    ∃ places, Adds first places (as.flatMap funcsOf) last := by
  induction runs with
  | nil calls => exact ⟨[], .nil calls⟩
  | cons head _ ih =>
    obtain ⟨places, one⟩ := each _ List.mem_cons_self _ _ _ head
    obtain ⟨others, more⟩ := ih fun a member => each a (List.mem_cons_of_mem _ member)
    exact ⟨places ++ others, one.append more⟩

end Adds

theorem adds_lift {registry : Registry} {onColumn : String → Except CompileError GroupExpr}
    {e : Expr} {x : GroupExpr} {first last : List AggregateCall}
    (columns : ∀ name x, onColumn name = .ok x → x.aggregates = [])
    (ok : (lift registry onColumn e).run first = .ok (x, last)) (unnested : e.IsUnnested registry) :
    Adds first x.aggregates (e.aggregates registry) last := by
  refine lift_induction (R := fun e first x last => e.IsUnnested registry →
    Adds first x.aggregates (e.aggregates registry) last)
    ?column ?aggregate ?operation ok unnested
  case column =>
    intro name x calls found _
    rw [columns name x found]
    exact .nil calls
  case aggregate =>
    intro name args func index first last found interned unnested
    rw [unnested.aggregates_call found]
    exact .intern interned
  case operation =>
    intro e x first last same runs unnested
    rw [GroupExpr.aggregates_eq same.target?,
      Expr.aggregates_eq (Expr.isAggregateCall_of_inner same.isLeaf)]
    exact .of_runs runs fun part child x u v ih =>
      ih (unnested.part fun _ within => Expr.nodes_subset_of_child child within)

theorem adds_liftOutput {registry : Registry} {keys : List GroupKey} {selected : Selected}
    {output : Output} {first last : List AggregateCall}
    (ok : (liftOutput registry keys selected).run first = .ok (output, last))
    (unnested : selected.expr.IsUnnested registry) :
    Adds first output.expr.aggregates (selected.expr.aggregates registry) last := by
  simp only [liftOutput, run_bind_eq_ok, run_pure_eq_ok] at ok
  obtain ⟨x, last, ok, rfl, rfl⟩ := ok
  refine adds_lift (fun name x found => ?_) ok unnested
  obtain ⟨index, -, rfl⟩ := keyReference_eq_ok.mp found
  rfl

/-- Whether an expression contains an aggregate without being just that aggregate. -/
def Expr.isComputed (registry : Registry) (e : Expr) : Bool :=
  !(e.aggregates registry).isEmpty && !e.isAggregateCall registry

theorem GroupExpr.hasAggregate_eq {e : GroupExpr} (plain : e.isPlain) :
    e.hasAggregate = !e.aggregates.isEmpty := by
  rw [Bool.eq_iff_iff, hasAggregate, List.any_eq_true, Bool.not_eq_true',
    List.isEmpty_eq_false_iff_exists_mem]
  constructor
  · rintro ⟨target, refers, is⟩
    cases target with
    | aggregate index => exact ⟨index, List.mem_filterMap.mpr ⟨_, refers, rfl⟩⟩
    | shared index => exact absurd refers (plain index)
    | _ => cases is
  · rintro ⟨index, member⟩
    obtain ⟨target, refers, same⟩ := List.mem_filterMap.mp member
    refine ⟨target, refers, ?_⟩
    cases target <;> first | rfl | cases same

theorem isComputed_outputKind {keys : List GroupKey} {name : String} {e : GroupExpr}
    (compound : e.isCompound = true) :
    (outputKind keys name e == .computed) = e.hasAggregate := by
  have kind : outputKind keys name e = if e.hasAggregate then .computed else .scalar := by
    cases e <;> first | rfl | cases compound
  rw [kind]
  cases e.hasAggregate <;> rfl

theorem isComputed_liftOutput {registry : Registry} {keys : List GroupKey} {selected : Selected}
    {output : Output} {first last : List AggregateCall}
    (ok : (liftOutput registry keys selected).run first = .ok (output, last))
    (unnested : selected.expr.IsUnnested registry) :
    output.isComputed = selected.expr.isComputed registry := by
  obtain ⟨-, lifted, -⟩ := isLifted_liftOutput (P := fun _ => True) ok (fun _ _ => trivial)
    fun _ _ _ _ => trivial
  have amount : output.expr.aggregates.isEmpty = (selected.expr.aggregates registry).isEmpty := by
    simpa using congrArg List.isEmpty (adds_liftOutput ok unnested).places
  simp only [liftOutput, run_bind_eq_ok, run_pure_eq_ok] at ok
  obtain ⟨x, last, ok, rfl, rfl⟩ := ok
  obtain ⟨-, lifts⟩ := lifts_lift (P := fun _ => True) ok (fun _ _ => trivial)
    fun _ _ _ _ => trivial
  have compound : x.isCompound = true → selected.expr.isAggregateCall registry = false →
      (outputKind keys selected.name x == .computed) = selected.expr.isComputed registry := by
    intro compound single
    rw [isComputed_outputKind compound, GroupExpr.hasAggregate_eq lifted.isPlain, amount,
      Expr.isComputed, single, Bool.not_false, Bool.and_true]
  obtain ⟨name, e⟩ := selected
  cases lifts with
  | leaf is leaf =>
    cases leaf with
    | column found =>
      obtain ⟨index, -, rfl⟩ := keyReference_eq_ok.mp found
      dsimp only [Output.isComputed, outputKind]
      split <;> rfl
    | aggregate function args index =>
      have single : (Expr.call function args).isAggregateCall registry = true := is
      rw [Expr.isComputed, single, Bool.not_true, Bool.and_false]
      rfl
  | literal value => rfl
  | binary op _ _ => exact compound rfl rfl
  | unary op _ => exact compound rfl rfl
  | inList negated _ _ => exact compound rfl rfl
  | call function scalar _ => exact compound rfl scalar

/-! ## Filters -/

namespace FilterScope

section
variable (scope : FilterScope)

/-- The aggregates that a node outside of aggregates stands for: its own, or those in the definition
of the derived column that it names. What an output is made of is none of the filter's. -/
def aggregatesOf : Expr → List Aggregate
  | .column name => (scope.definition? name).toList.flatMap (·.aggregates scope.resolver.registry)
  | .call name _ => (scope.resolver.registry.aggregate? name).toList
  | _ => []

def aggregatesIn (e : Expr) : List Aggregate := (scope.outside e).flatMap scope.aggregatesOf

end

variable {scope : FilterScope} {first last : List AggregateCall}

theorem aggregatesIn_column (name : String) : scope.aggregatesIn (.column name) =
    (scope.definition? name).toList.flatMap (·.aggregates scope.resolver.registry) :=
  List.append_nil _

theorem aggregatesIn_aggregate {name : String} {args : List Expr} {func : Aggregate}
    (found : scope.resolver.registry.aggregate? name = some func) :
    scope.aggregatesIn (.call name args) = [func] := by
  have alone : scope.outside (.call name args) = [.call name args] := by
    simp [outside, Expr.outside, Expr.walk, Expr.isAggregateCall,
      isAggregate_of_aggregate? found]
  rw [aggregatesIn, alone, List.flatMap_singleton, aggregatesOf, found, Option.toList_some]

theorem aggregatesIn_eq {e : Expr} (inner : e.isLeaf scope.resolver.registry = false) :
    scope.aggregatesIn e = e.children.flatMap scope.aggregatesIn := by
  have scalar := Expr.isAggregateCall_of_inner inner
  have none : scope.aggregatesOf e = [] := by
    cases e with
    | column | placeholder => cases inner
    | call name args =>
      have absent : scope.resolver.registry.aggregate? name = none := by
        simpa [Expr.isAggregateCall, Registry.isAggregate] using scalar
      rw [aggregatesOf, absent, Option.toList_none]
    | _ => rfl
  have parts : scope.outside e = e :: e.children.flatMap scope.outside := Expr.outside_eq scalar
  rw [aggregatesIn, parts, List.flatMap_cons, none, List.nil_append, List.flatMap_assoc]
  rfl

theorem adds_liftResolved {e resolved : Expr} {x : GroupExpr}
    (resolves : scope.resolver.resolve e = .ok resolved)
    (ok : (scope.liftResolved e).run first = .ok (x, last)) :
    Adds first x.aggregates (resolved.aggregates scope.resolver.registry) last := by
  obtain ⟨other, found, ok⟩ := liftResolved_eq_ok.mp ok
  obtain rfl := Except.ok.inj (found.symm.trans resolves)
  refine adds_lift (fun name x given => ?_) ok (Resolver.isFlat_resolve found).isUnnested
  cases given
  rfl

-- A condition may refer to the aggregates of outputs, too, so the places are only those that its
-- own aggregates get.
theorem adds_liftExpr {e : Expr} {x : GroupExpr}
    (ok : (scope.liftExpr e).run first = .ok (x, last)) :
    ∃ places, Adds first places (scope.aggregatesIn e) last := by
  refine liftExpr_induction (R := fun e first _ last =>
    ∃ places, Adds first places (scope.aggregatesIn e) last)
    ?column ?placeholder ?aggregate ?operation ok
  case column =>
    intro name x first last ok
    rw [aggregatesIn_column]
    cases named_liftName ok with
    | stored is =>
      have undefined : scope.definition? name = none := by rw [definition?, is]; rfl
      rw [undefined]
      exact ⟨[], .nil first⟩
    | output place found =>
      have undefined : scope.definition? name = none := by
        rw [definition?, place, Option.isSome_some, Bool.or_true, if_pos rfl]
      rw [undefined]
      exact ⟨[], .nil first⟩
    | derived defined ok =>
      rw [defined, Option.toList_some, List.flatMap_singleton]
      exact ⟨_, adds_liftResolved (resolve_of_definition? defined) ok⟩
  case placeholder => exact fun name value calls => ⟨[], .nil calls⟩
  case aggregate =>
    intro name args func x first last is ok
    obtain ⟨resolved, resolves, -⟩ := liftResolved_eq_ok.mp ok
    obtain ⟨args', rfl⟩ := Resolver.resolve_call resolves
    have adds := adds_liftResolved resolves ok
    rw [(Resolver.isFlat_resolve resolves).isUnnested.aggregates_call is] at adds
    rw [aggregatesIn_aggregate is]
    exact ⟨_, adds⟩
  case operation =>
    intro e x first last same _ runs
    rw [aggregatesIn_eq same.isLeaf]
    exact Adds.exists_of_runs runs fun part child x u v ih => ih

theorem adds_liftCondition {conjunct : Expr} {condition : Condition}
    (ok : (scope.liftCondition conjunct).run first = .ok (condition, last)) :
    ∃ places, Adds first places (scope.aggregatesIn conjunct) last := by
  simp only [liftCondition, run_bind_eq_ok] at ok
  obtain ⟨x, middle, lifted, ok⟩ := ok
  have adds := adds_liftExpr lifted
  -- Keys are put in the place of columns without collecting anything.
  split at ok
  · obtain ⟨-, rfl⟩ := run_pure_eq_ok.mp ok
    exact adds
  · simp only [run_bind_eq_ok] at ok
    obtain ⟨y, last, run, ok⟩ := ok
    obtain ⟨-, rfl⟩ := run_pure_eq_ok.mp ok
    obtain ⟨-, rfl⟩ := run_lift_eq_ok.mp run
    exact adds

end FilterScope

end Rollup
