import Rollup.Proofs.Group.Condition
import Rollup.Proofs.Group.Shared

/-! Which functions are called outside of aggregates, and inside of them.

A resolved expression calls known functions only, and no aggregate inside of another one. So the
arguments of collected aggregates call functions of single rows, and so does what is left of an
expression when its aggregates are taken out, but for metrics whose own aggregate is not known.
Neither the keys of a condition nor shared expressions change that.
-/

set_option autoImplicit false

namespace Rollup

namespace Expr

def IsScalar (registry : Registry) (e : Expr) : Prop := ∀ name ∈ e.calls, registry.IsScalar name

def IsFlat (registry : Registry) (e : Expr) : Prop :=
  ∀ name args, .call name args ∈ e.nodes → registry.IsScalar name ∨
    registry.isAggregate name = true ∧ ∀ arg ∈ args, arg.IsScalar registry

theorem IsFlat.part {registry : Registry} {part e : Expr} (flat : e.IsFlat registry)
    (within : ∀ node ∈ part.nodes, node ∈ e.nodes) : part.IsFlat registry :=
  fun name args member => flat name args (within _ member)

end Expr

def GroupExpr.CallsOnly (Callable : String → Prop) (e : GroupExpr) : Prop :=
  ∀ name ∈ e.calls, Callable name

/-! ## Resolving -/

namespace Resolver
variable {r : Resolver}

theorem checkCallsEach_eq_ok {enclosing : Option String} {es : List Expr}
    (ok : r.checkCallsEach enclosing es = .ok ()) :
    ∀ e ∈ es, r.checkCalls enclosing e = .ok () := by
  induction es with
  | nil => exact fun e member => absurd member List.not_mem_nil
  | cons e rest ih =>
    simp only [checkCallsEach, bind_eq_ok] at ok
    obtain ⟨⟨⟩, first, tail⟩ := ok
    exact List.forall_mem_cons.mpr ⟨first, ih tail⟩

/-- What the check says of a call: its function is known and takes as many arguments, and it is no
aggregate inside of another one. -/
structure Checked (r : Resolver) (enclosing : Option String) (name : String) (args : List Expr)
    (spec : FunctionSpec) : Prop where
  found : r.registry.get? name = some spec
  accepts : spec.accepts args.length = true
  kind : spec.kind = .scalar ∨ enclosing = none ∧ (∃ func, spec.kind = .aggregate func) ∧
    ∀ arg ∈ args, arg.IsScalar r.registry

theorem Checked.isScalar_or {enclosing : Option String} {name : String} {args : List Expr}
    {spec : FunctionSpec} (checked : Checked r enclosing name args spec) :
    r.registry.IsScalar name ∨ enclosing = none ∧ r.registry.isAggregate name = true ∧
      ∀ arg ∈ args, arg.IsScalar r.registry := by
  rcases checked.kind with scalar | ⟨outermost, ⟨func, aggregate⟩, inside⟩
  · refine .inl ?_
    rw [Registry.IsScalar, checked.found, Option.map_some, scalar]
  · refine .inr ⟨outermost, ?_, inside⟩
    simp [Registry.isAggregate, Registry.aggregate?, checked.found, FunctionSpec.aggregate?,
      aggregate]

theorem Checked.scalar {text name : String} {args : List Expr} {spec : FunctionSpec}
    (checked : Checked r (some text) name args spec) : spec.kind = .scalar :=
  checked.kind.resolve_right fun outermost => Option.some_ne_none _ outermost.1

/-- The arguments of an aggregate are checked as enclosed by it, those of another function are
where the call is. -/
theorem call_checkCalls {enclosing : Option String} {name : String} {args : List Expr}
    (ok : r.checkCalls enclosing (.call name args) = .ok ()) :
    ∃ spec, r.registry.get? name = some spec ∧ spec.accepts args.length = true ∧
      (spec.kind = .scalar ∧ (∀ arg ∈ args, r.checkCalls enclosing arg = .ok ()) ∨
        enclosing = none ∧ (∃ func, spec.kind = .aggregate func) ∧
          ∃ text, ∀ arg ∈ args, r.checkCalls (some text) arg = .ok ()) := by
  rw [checkCalls] at ok
  split at ok
  · cases ok
  rename_i spec found
  dsimp only at ok
  split at ok
  · cases ok
  rename_i accepted
  refine ⟨spec, found, by simpa using accepted, ?_⟩
  split at ok
  · cases ok
  · rename_i func kind
    exact .inr ⟨rfl, ⟨func, kind⟩, _, checkCallsEach_eq_ok ok⟩
  · rename_i kind
    exact .inl ⟨kind, checkCallsEach_eq_ok ok⟩

theorem checkCalls_child {enclosing : Option String} {e part : Expr}
    (ok : r.checkCalls enclosing e = .ok ()) (child : part ∈ e.children) :
    r.checkCalls enclosing part = .ok () ∨ ∃ text, r.checkCalls (some text) part = .ok () := by
  cases e with
  | literal | column | placeholder => cases child
  | binary op left right =>
    simp only [checkCalls, bind_eq_ok] at ok
    obtain ⟨⟨⟩, okl, okr⟩ := ok
    rcases List.mem_pair.mp child with rfl | rfl
    · exact .inl okl
    · exact .inl okr
  | unary op operand => exact .inl (List.mem_singleton.mp child ▸ ok)
  | inList operand items negated =>
    simp only [checkCalls, bind_eq_ok] at ok
    obtain ⟨⟨⟩, ok, oks⟩ := ok
    rcases List.mem_cons.mp child with rfl | listed
    · exact .inl ok
    · exact .inl (checkCallsEach_eq_ok oks part listed)
  | call name args =>
    obtain ⟨spec, -, -, ⟨-, oks⟩ | ⟨-, -, text, oks⟩⟩ := call_checkCalls ok
    · exact .inl (oks part child)
    · exact .inr ⟨text, oks part child⟩

theorem checked_checkCalls {enclosing : Option String} {e : Expr}
    (ok : r.checkCalls enclosing e = .ok ()) {name : String} {args : List Expr}
    (member : .call name args ∈ e.nodes) : ∃ spec, Checked r enclosing name args spec := by
  induction e using Expr.byChildren generalizing enclosing name args with
  | step e ih =>
    rcases Expr.mem_walk.mp member with rfl | ⟨-, part, child, member⟩
    · obtain ⟨spec, found, accepts, ⟨kind, -⟩ | ⟨outermost, aggregate, text, oks⟩⟩ :=
        call_checkCalls ok
      · exact ⟨spec, found, accepts, .inl kind⟩
      · refine ⟨spec, found, accepts, .inr ⟨outermost, aggregate, ?_⟩⟩
        intro arg listed other called
        obtain ⟨others, within⟩ := Expr.mem_calls.mp called
        obtain ⟨spec, checked⟩ := ih arg listed (oks arg listed) within
        rw [Registry.IsScalar, checked.found, Option.map_some, checked.scalar]
    · rcases checkCalls_child ok child with ok | ⟨text, ok⟩
      · exact ih part child ok member
      · obtain ⟨spec, checked⟩ := ih part child ok member
        exact ⟨spec, checked.found, checked.accepts, .inl checked.scalar⟩

theorem checked_resolve {e x : Expr} (ok : r.resolve e = .ok x) {name : String} {args : List Expr}
    (member : .call name args ∈ x.nodes) : ∃ spec, Checked r none name args spec := by
  simp only [resolve, bind_eq_ok, pure_eq_ok] at ok
  obtain ⟨y, -, ⟨⟩, checked, rfl⟩ := ok
  exact checked_checkCalls checked member

theorem isFlat_resolve {e x : Expr} (ok : r.resolve e = .ok x) : x.IsFlat r.registry := by
  intro name args member
  obtain ⟨spec, checked⟩ := checked_resolve ok member
  exact checked.isScalar_or.imp_right And.right

end Resolver

/-! ## Lifting -/

/-- An expression that calls only certain functions when it is lifted: in the arguments of
aggregates, and outside of them as far as the columns that are passed have replacements. -/
structure Expr.MayCall (registry : Registry) (onColumn : String → Except CompileError GroupExpr)
    (Callable : String → Prop) (e : Expr) : Prop where
  inside (name : String) (args : List Expr) : .call name args ∈ e.nodes →
    registry.isAggregate name = true → ∀ arg ∈ args, ∀ inner ∈ arg.calls, Callable inner
  outside (name : String) (args : List Expr) : .call name args ∈ e.nodes →
    registry.isAggregate name = false →
      (∀ column, .column column ∈ args → ∃ x, onColumn column = .ok x) → Callable name

def ArgsCall (Callable : String → Prop) (calls : List AggregateCall) : Prop :=
  ∀ call ∈ calls, ∀ arg, call.arg = some arg → ∀ name ∈ arg.calls, Callable name

section
variable {Callable : String → Prop} {registry : Registry}
  {onColumn : String → Except CompileError GroupExpr}

theorem Expr.MayCall.part {part e : Expr} (may : e.MayCall registry onColumn Callable)
    (within : ∀ node ∈ part.nodes, node ∈ e.nodes) : part.MayCall registry onColumn Callable where
  inside name args member := may.inside name args (within _ member)
  outside name args member := may.outside name args (within _ member)

theorem Expr.IsFlat.mayCall (scalar : ∀ name, registry.IsScalar name → Callable name) {e : Expr}
    (flat : e.IsFlat registry) : e.MayCall registry onColumn Callable where
  inside name args member is arg listed inner called := by
    have inside := (flat name args member).resolve_left fun outside => by
      rw [Registry.isAggregate, isAggregate_of_isScalar outside] at is
      cases is
    exact scalar inner (inside.2 arg listed inner called)
  outside name args member is _ :=
    scalar name ((flat name args member).resolve_right fun nested => by simp [is] at nested)

/-- Of the functions that are called by an expression with its metrics aggregated, only those that
aggregate a metric need not be known. -/
theorem Resolver.mayCall_aggregateMetrics {r : Resolver}
    (scalar : ∀ name, r.registry.IsScalar name → Callable name)
    (default : ∀ column metric, r.schema.metric? column = some metric →
      r.registry.isAggregate metric.aggregator.name = false →
        (∃ x, onColumn column = .ok x) → Callable metric.aggregator.name)
    {e : Expr} (flat : e.IsFlat r.registry) :
    (r.aggregateMetrics e).MayCall r.registry onColumn Callable := by
  have kept : e.MayCall r.registry onColumn Callable := flat.mayCall scalar
  -- A call is one that was there before, up to its arguments, or that of a metric.
  have origin : ∀ {name : String} {args : List Expr},
      .call name args ∈ (r.aggregateMetrics e).nodes → .call name args ∈ e.nodes ∨
        (∃ column metric, r.schema.metric? column = some metric ∧
          name = metric.aggregator.name ∧ args = [.column column]) ∨
        r.registry.isAggregate name = false ∧ ∃ others, .call name others ∈ e.nodes := by
    intro name args member
    rcases r.mem_nodes_aggregateMetrics member with kept | ⟨origin, within, same⟩
    · exact .inl kept
    · rcases call_of_aggregateMetrics same.symm with
        rfl | ⟨column, metric, -, found⟩ | ⟨scalar, others, rfl⟩
      · exact .inl within
      · exact .inr (.inl ⟨column, metric, found⟩)
      · exact .inr (.inr ⟨scalar, others, within⟩)
  constructor
  · intro name args member is
    rcases origin member with member | ⟨column, metric, -, -, rfl⟩ | ⟨scalar, -⟩
    · exact kept.inside name args member is
    · intro arg listed inner called
      obtain rfl := List.mem_singleton.mp listed
      simp [Expr.mem_calls] at called
    · cases is.symm.trans scalar
  · intro name args member is replaced
    rcases origin member with member | ⟨column, metric, found, rfl, rfl⟩ | ⟨-, others, member⟩
    · exact kept.outside name args member is replaced
    · exact default column metric found is (replaced column List.mem_cons_self)
    · exact scalar name ((flat name others member).resolve_right fun nested => by
        simp [is] at nested)

theorem argsCall_intern {call : AggregateCall} {first last : List AggregateCall} {index : Nat}
    (ok : (intern call).run first = .ok (index, last))
    (each : ∀ arg, call.arg = some arg → ∀ name ∈ arg.calls, Callable name)
    (before : ArgsCall Callable first) : ArgsCall Callable last := by
  simp only [intern, StateT.run] at ok
  split at ok
  · cases ok
    exact before
  · cases ok
    intro other member
    rcases List.mem_append.mp member with member | member
    · exact before other member
    · obtain rfl := List.mem_singleton.mp member
      exact each

theorem callsOnly_of_children {x : GroupExpr}
    (callable : ∀ name, x.callName? = some name → Callable name)
    (each : ∀ part ∈ x.children, part.CallsOnly Callable) : x.CallsOnly Callable := by
  intro name called
  rw [GroupExpr.calls_eq, List.mem_append, Option.mem_toList, List.mem_flatMap] at called
  rcases called with called | ⟨part, child, called⟩
  · exact callable name called
  · exact each part child name called

theorem callsOnly_literal (value : Literal) : (GroupExpr.literal value).CallsOnly Callable :=
  fun _ called => absurd called List.not_mem_nil

theorem callsOnly_reference (target : Reference) :
    (GroupExpr.reference target).CallsOnly Callable :=
  fun _ called => absurd called List.not_mem_nil

theorem SameOperation.exists_call {e : Expr} {x : GroupExpr} {name : String}
    (same : SameOperation registry e x) (called : x.callName? = some name) :
    ∃ args, e = .call name args ∧ registry.isAggregate name = false := by
  cases same with
  | call function args args' scalar =>
    obtain rfl := Option.some.inj called
    exact ⟨args, rfl, scalar⟩
  | _ => cases called

theorem called_lift {e : Expr} {x : GroupExpr} {first last : List AggregateCall}
    (columns : ∀ name x, onColumn name = .ok x → x.CallsOnly Callable)
    (ok : (lift registry onColumn e).run first = .ok (x, last))
    (may : e.MayCall registry onColumn Callable) (before : ArgsCall Callable first) :
    ArgsCall Callable last ∧ x.CallsOnly Callable := by
  -- An argument that is a column has been replaced when the call is reached.
  have lifted : (∀ column, e = .column column → ∃ x, onColumn column = .ok x) ∧
      (e.MayCall registry onColumn Callable → ArgsCall Callable first →
        ArgsCall Callable last ∧ x.CallsOnly Callable) := by
    refine lift_induction (R := fun e first x last =>
      (∀ column, e = .column column → ∃ x, onColumn column = .ok x) ∧
        (e.MayCall registry onColumn Callable → ArgsCall Callable first →
          ArgsCall Callable last ∧ x.CallsOnly Callable))
      ?column ?aggregate ?operation ok
    case column =>
      refine fun name x calls found => ⟨?_, fun _ before => ⟨before, columns name x found⟩⟩
      rintro column ⟨rfl⟩
      exact ⟨x, found⟩
    case aggregate =>
      refine fun name args func index first last found interned =>
        ⟨nofun, fun may before => ⟨argsCall_intern interned (fun arg given => ?_) before,
          callsOnly_reference _⟩⟩
      exact may.inside name args (by simp) (isAggregate_of_aggregate? found) arg
        (List.mem_of_head? given)
    case operation =>
      refine fun e x first last same runs => ⟨?_, fun may before => ?_⟩
      · rintro column rfl
        cases same
      obtain ⟨after, lifts⟩ := runs.invariant
        (G := fun part x => (∀ column, part = .column column → ∃ x, onColumn column = .ok x) ∧
          x.CallsOnly Callable)
        (fun part child x u v ih before =>
          (ih.2 (may.part fun _ within => Expr.nodes_subset_of_child child within) before).imp_right
            fun calls => ⟨ih.1, calls⟩) before
      refine ⟨after, callsOnly_of_children (fun name called => ?_) fun part child => ?_⟩
      · obtain ⟨args, rfl, scalar⟩ := same.exists_call called
        refine may.outside name args (Expr.self_mem_nodes _) scalar fun column passed => ?_
        obtain ⟨_, -, replaced, -⟩ := related_of_mem_left lifts passed
        exact replaced column rfl
      · obtain ⟨_, -, -, calls⟩ := related_of_mem_right lifts child
        exact calls
  exact lifted.2 may before

end

theorem called_liftOutput {Callable : String → Prop} {registry : Registry} {keys : List GroupKey}
    {selected : Selected} {output : Output} {first last : List AggregateCall}
    (ok : (liftOutput registry keys selected).run first = .ok (output, last))
    (may : selected.expr.MayCall registry (keyReference keys selected.expr) Callable)
    (before : ArgsCall Callable first) :
    ArgsCall Callable last ∧ output.expr.CallsOnly Callable := by
  simp only [liftOutput, run_bind_eq_ok, run_pure_eq_ok] at ok
  obtain ⟨x, last, ok, rfl, rfl⟩ := ok
  refine called_lift (fun name x found => ?_) ok may before
  obtain ⟨index, -, rfl⟩ := keyReference_eq_ok.mp found
  exact callsOnly_reference _

/-! ## Conditions -/

namespace FilterScope
variable {scope : FilterScope} {first last : List AggregateCall} {Callable : String → Prop}
  (scalar : ∀ name, scope.resolver.registry.IsScalar name → Callable name)
include scalar

theorem called_liftResolved {e : Expr} {x : GroupExpr}
    (ok : (scope.liftResolved e).run first = .ok (x, last)) (before : ArgsCall Callable first) :
    ArgsCall Callable last ∧ x.CallsOnly Callable := by
  obtain ⟨resolved, found, ok⟩ := liftResolved_eq_ok.mp ok
  refine called_lift (fun name x given => ?_) ok
    ((Resolver.isFlat_resolve found).mayCall scalar) before
  cases given
  exact callsOnly_reference _

variable (outputs : ∀ output ∈ scope.outputs, output.expr.CallsOnly Callable)
include outputs

theorem called_liftName {name : String} {x : GroupExpr}
    (ok : (scope.liftName name).run first = .ok (x, last)) (before : ArgsCall Callable first) :
    ArgsCall Callable last ∧ x.CallsOnly Callable := by
  cases named_liftName ok with
  | stored => exact ⟨before, callsOnly_reference _⟩
  | @output index output place found =>
    refine ⟨before, ?_⟩
    unfold Output.asOperand
    split
    · exact callsOnly_reference _
    · exact outputs output (List.mem_of_getElem? found)
  | derived defined ok => exact called_liftResolved scalar ok before

theorem called_liftExpr {e : Expr} {x : GroupExpr}
    (ok : (scope.liftExpr e).run first = .ok (x, last)) (before : ArgsCall Callable first) :
    ArgsCall Callable last ∧ x.CallsOnly Callable := by
  refine liftExpr_induction (R := fun e first x last =>
    ArgsCall Callable first → ArgsCall Callable last ∧ x.CallsOnly Callable)
    ?column ?placeholder ?aggregate ?operation ok before
  case column =>
    exact fun name x first last ok before => called_liftName scalar outputs ok before
  case placeholder => exact fun name value calls before => ⟨before, callsOnly_literal _⟩
  case aggregate =>
    exact fun name args func x first last found ok before => called_liftResolved scalar ok before
  case operation =>
    intro e x first last same known runs before
    obtain ⟨after, lifts⟩ := runs.invariant (G := fun _ x => x.CallsOnly Callable)
      (fun part child x u v ih => ih) before
    refine ⟨after, callsOnly_of_children (fun name called => ?_) fun part child => ?_⟩
    · obtain ⟨args, is, -⟩ := same.exists_call called
      exact scalar name (known name args is)
    · obtain ⟨_, -, calls⟩ := related_of_mem_right lifts child
      exact calls

theorem called_liftCondition {conjunct : Expr} {condition : Condition}
    (ok : (scope.liftCondition conjunct).run first = .ok (condition, last))
    (before : ArgsCall Callable first) :
    ArgsCall Callable last ∧ condition.expr.CallsOnly Callable := by
  simp only [liftCondition, run_bind_eq_ok] at ok
  obtain ⟨x, middle, lifted, ok⟩ := ok
  obtain ⟨after, calls⟩ := called_liftExpr scalar outputs lifted before
  split at ok
  · obtain ⟨rfl, rfl⟩ := run_pure_eq_ok.mp ok
    exact ⟨after, calls⟩
  · simp only [run_bind_eq_ok] at ok
    obtain ⟨y, last, run, ok⟩ := ok
    obtain ⟨rfl, rfl⟩ := run_pure_eq_ok.mp ok
    obtain ⟨placed, rfl⟩ := run_lift_eq_ok.mp run
    obtain ⟨g, given, rfl⟩ := GroupExpr.substitute_of_substituteM placed
    refine ⟨after, fun name called => ?_⟩
    -- References are put in the place of references, so no call is added.
    rcases GroupExpr.mem_calls_substitute.mp called with called | ⟨target, refers, called⟩
    · exact calls name called
    · obtain ⟨other, same, -⟩ := groupReference_eq_ok (given target refers)
      rw [same] at called
      cases called

end FilterScope

/-! ## Sharing -/

theorem SharedFrom.calls {found : List GroupExpr} {output output' : Output}
    (from_ : SharedFrom found output output') : output'.expr.calls ⊆ output.expr.calls := by
  intro name called
  rw [← GroupExpr.calls_of_same from_.same]
  exact GroupExpr.mem_calls_substitute.mpr (.inl called)

theorem calls_of_isShared {outputs : List Output} {e : GroupExpr}
    (is : isShared (computedExprs outputs) e = true) :
    ∃ output ∈ outputs, e.calls ⊆ output.expr.calls := by
  simp only [isShared, Bool.and_eq_true, decide_eq_true_eq] at is
  obtain ⟨whole, listed, occurs⟩ :=
    List.countP_pos_iff.mp (Nat.lt_of_lt_of_le Nat.zero_lt_two is.2)
  obtain ⟨node, member, same⟩ := List.any_eq_true.mp occurs
  obtain ⟨output, among, rfl⟩ := List.mem_map.mp listed
  refine ⟨output, List.mem_of_mem_filter among, ?_⟩
  rw [← GroupExpr.calls_of_same same]
  exact GroupExpr.calls_subset member

end Rollup
