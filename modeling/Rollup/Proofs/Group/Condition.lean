import Rollup.Group.Condition
import Rollup.Proofs.Compile.Resolver
import Rollup.Proofs.Group.Output
import Rollup.Proofs.Group.Substitution

/-! When the conditions of a filter can be tested.

A condition mentions what its names and calls stand for, outside of the arguments of aggregates. One
that mentions a computed output waits for the results of groups, any other one that mentions an
aggregate waits for the groups, and the rest are tested in single rows. A condition that waits can
read columns of single rows only if they are group keys.
-/

set_option autoImplicit false

namespace Rollup

namespace FilterScope

section
variable (scope : FilterScope)

/-- The place of the output that a name stands for. -/
def outputPlace? (name : String) : Option Nat :=
  if scope.resolver.schema.isStored name then none
  else scope.outputs.findIdx? (·.name == name)

def namedOutput? (name : String) : Option Output :=
  (scope.outputPlace? name).bind fun index => scope.outputs[index]?

/-- The resolved definition of the derived column that a name stands for. -/
def definition? (name : String) : Option Expr :=
  if scope.resolver.schema.isStored name || (scope.outputPlace? name).isSome then none
  else match scope.resolver.schema.column? name with
    | some (.derived _) => (scope.resolver.resolve (.column name)).toOption
    | _ => none

def isAggregate (e : Expr) : Bool := e.isAggregateCall scope.resolver.registry

def outside (e : Expr) : List Expr := e.outside scope.resolver.registry

/-- Whether a node stands for an aggregate: a call, a derived column with a call in it, or an output
that is an aggregate. -/
def standsForAggregate : Expr → Bool
  | .column name =>
    (scope.namedOutput? name).any (fun output => (output.kind matches .aggregate _)) ||
      (scope.definition? name).any fun definition =>
        (scope.outside definition).any scope.isAggregate
  | e => scope.isAggregate e

def standsForComputed : Expr → Bool
  | .column name => (scope.namedOutput? name).any (·.kind == .computed)
  | _ => false

/-- The stored columns that a node stands for. -/
def columnsOf : Expr → List String
  | .column name =>
    if scope.resolver.schema.isStored name then [name]
    else match scope.definition? name with
      | some definition => (scope.outside definition).filterMap Expr.columnName?
      | none => []
  | _ => []

def mentionsAggregate (e : Expr) : Bool := (scope.outside e).any scope.standsForAggregate

def mentionsComputed (e : Expr) : Bool := (scope.outside e).any scope.standsForComputed

/-- The stored columns that are read outside of aggregates. -/
def columnsRead (e : Expr) : List String := (scope.outside e).flatMap scope.columnsOf

/-- Where a condition is to be tested. -/
def levelOf (e : Expr) : Level :=
  if scope.mentionsComputed e then .output
  else if scope.mentionsAggregate e then .group
  else .row

/-- A condition that waits for groups and reads a column that is no key. -/
def IsMixed (e : Expr) : Prop :=
  scope.levelOf e ≠ .row ∧ ∃ column ∈ scope.columnsRead e, keyOf? scope.keys column = none

end

/-! ## Lifting -/

/-- What the leaves of a condition turn into when it is lifted. -/
inductive Leaf (scope : FilterScope) : Expr → GroupExpr → Prop where
  | placeholder (name : String) (value : Literal) : Leaf scope (.placeholder name) (.literal value)
  | stored {name : String} : scope.resolver.schema.isStored name = true →
      Leaf scope (.column name) (.reference (.column name))
  | output {name : String} {index : Nat} {output : Output} :
      scope.outputPlace? name = some index → scope.outputs[index]? = some output →
        Leaf scope (.column name) (output.asOperand index)
  | derived {name : String} {definition : Expr} {x : GroupExpr} :
      scope.definition? name = some definition →
        Lifts scope.resolver.registry (LiftedLeaf rowColumn) definition x →
          Leaf scope (.column name) x
  | aggregate (name : String) (args : List Expr) (index : Nat) :
      Leaf scope (.call name args) (.reference (.aggregate index))

variable {scope : FilterScope} {P : String → Prop}

theorem liftResolved_eq_ok {e : Expr} {x : GroupExpr} {first last : List AggregateCall} :
    (scope.liftResolved e).run first = .ok (x, last) ↔
      ∃ resolved, scope.resolver.resolve e = .ok resolved ∧
        (lift scope.resolver.registry rowColumn resolved).run first = .ok (x, last) := by
  simp only [liftResolved, run_bind_eq_ok]
  constructor
  · rintro ⟨resolved, middle, resolves, ok⟩
    obtain ⟨found, rfl⟩ := run_lift_eq_ok.mp resolves
    exact ⟨resolved, found, ok⟩
  · rintro ⟨resolved, found, ok⟩
    exact ⟨resolved, first, run_lift_eq_ok.mpr ⟨found, rfl⟩, ok⟩

inductive Named (scope : FilterScope) (name : String) (first : List AggregateCall) :
    GroupExpr → List AggregateCall → Prop where
  | stored : scope.resolver.schema.isStored name = true →
      Named scope name first (.reference (.column name)) first
  | output {index : Nat} {output : Output} : scope.outputPlace? name = some index →
      scope.outputs[index]? = some output → Named scope name first (output.asOperand index) first
  | derived {definition : Expr} {x : GroupExpr} {last : List AggregateCall} :
      scope.definition? name = some definition →
        (scope.liftResolved (.column name)).run first = .ok (x, last) →
          Named scope name first x last

theorem named_liftName {name : String} {x : GroupExpr} {first last : List AggregateCall}
    (ok : (scope.liftName name).run first = .ok (x, last)) : scope.Named name first x last := by
  unfold liftName at ok
  split at ok
  · rename_i is
    obtain ⟨rfl, rfl⟩ := run_pure_eq_ok.mp ok
    exact .stored is
  · rename_i unstored
    split at ok
    · rename_i index place
      have named : scope.outputPlace? name = some index := by
        rw [outputPlace?, if_neg unstored, place]
      split at ok
      · rename_i output found
        obtain ⟨rfl, rfl⟩ := run_pure_eq_ok.mp ok
        exact .output named found
      · cases ok
    · rename_i absent
      have unnamed : scope.outputPlace? name = none := by
        rw [outputPlace?, if_neg unstored, absent]
      split at ok
      · rename_i column found
        obtain ⟨resolved, resolves, -⟩ := liftResolved_eq_ok.mp ok
        have defined : scope.definition? name = some resolved := by
          simp [definition?, unstored, unnamed, found, resolves, Except.toOption]
        exact .derived defined ok
      · cases ok

theorem resolve_of_definition? {name : String} {definition : Expr}
    (defined : scope.definition? name = some definition) :
    scope.resolver.resolve (.column name) = .ok definition := by
  unfold definition? at defined
  split at defined
  · cases defined
  · split at defined
    · exact toOption_eq_some.mp defined
    · cases defined

theorem lifts_liftResolved {e : Expr} {x : GroupExpr} {calls calls' : List AggregateCall}
    (stored : ∀ name, scope.resolver.schema.isStored name = true → P name)
    (ok : (scope.liftResolved e).run calls = .ok (x, calls'))
    (before : ReadOnly P calls) :
    ReadOnly P calls' ∧
      ∃ resolved, scope.resolver.resolve e = .ok resolved ∧
        Lifts scope.resolver.registry (LiftedLeaf rowColumn) resolved x := by
  obtain ⟨resolved, found, ok⟩ := liftResolved_eq_ok.mp ok
  obtain ⟨after, lifts⟩ :=
    lifts_lift ok (fun name member => stored name (Resolver.isStored_resolve found member)) before
  exact ⟨after, resolved, found, lifts⟩

theorem leaf_liftName {name : String} {x : GroupExpr} {calls calls' : List AggregateCall}
    (stored : ∀ name, scope.resolver.schema.isStored name = true → P name)
    (ok : (scope.liftName name).run calls = .ok (x, calls'))
    (before : ReadOnly P calls) :
    ReadOnly P calls' ∧ scope.Leaf (.column name) x := by
  cases named_liftName ok with
  | stored is => exact ⟨before, .stored is⟩
  | output place found => exact ⟨before, .output place found⟩
  | derived defined ok =>
    obtain ⟨after, resolved, resolves, lifts⟩ := lifts_liftResolved stored ok before
    obtain rfl := Except.ok.inj ((resolve_of_definition? defined).symm.trans resolves)
    exact ⟨after, .derived defined lifts⟩

theorem liftEach_eq (es : List Expr) : scope.liftEach es = es.mapM scope.liftExpr := by
  induction es with
  | nil => rfl
  | cons e rest ih => rw [liftEach, ih, List.mapM_cons]

/-- A call is resolved as a whole if its function is an aggregate, and else its arguments are lifted
one after another. -/
theorem call_liftExpr {name : String} {args : List Expr} {x : GroupExpr}
    {first last : List AggregateCall}
    (ok : (scope.liftExpr (.call name args)).run first = .ok (x, last)) :
    (∃ func, scope.resolver.registry.aggregate? name = some func ∧
      (scope.liftResolved (.call name args)).run first = .ok (x, last)) ∨
    scope.resolver.registry.IsScalar name ∧
      ∃ args', x = .call name args' ∧
        Runs (fun arg u y v => (scope.liftExpr arg).run u = .ok (y, v)) args first args' last := by
  rw [liftExpr] at ok
  split at ok
  · cases ok
  · rename_i spec found
    split at ok
    · rename_i func kind
      exact .inl ⟨func, by simp [Registry.aggregate?, found, FunctionSpec.aggregate?, kind], ok⟩
    · rename_i kind
      split at ok
      · cases ok
      · simp only [liftEach_eq, run_bind_eq_ok, run_pure_eq_ok, mapM_run_eq_ok] at ok
        obtain ⟨ys, end_, oks, rfl, rfl⟩ := ok
        exact .inr ⟨by rw [Registry.IsScalar, found, Option.map_some, kind], ys, rfl, oks⟩

theorem descends_liftExpr (scope : FilterScope) :
    Descends scope.resolver.registry scope.liftExpr where
  operands {e x first last} inner ok := by
    cases e with
    | column | placeholder => cases inner
    | literal value =>
      rw [liftExpr, run_pure_eq_ok] at ok
      obtain ⟨rfl, rfl⟩ := ok
      exact ⟨.literal value, .nil _⟩
    | binary op left right =>
      simp only [liftExpr, run_bind_eq_ok, run_pure_eq_ok] at ok
      obtain ⟨l, middle, okl, r, end_, okr, rfl, rfl⟩ := ok
      exact ⟨.binary op .., .cons okl (.cons okr (.nil _))⟩
    | unary op operand =>
      simp only [liftExpr, run_bind_eq_ok, run_pure_eq_ok] at ok
      obtain ⟨y, end_, ok, rfl, rfl⟩ := ok
      exact ⟨.unary op .., .cons ok (.nil _)⟩
    | inList operand items negated =>
      simp only [liftExpr, liftEach_eq, run_bind_eq_ok, run_pure_eq_ok, mapM_run_eq_ok] at ok
      obtain ⟨y, middle, ok, ys, end_, oks, rfl, rfl⟩ := ok
      exact ⟨.inList negated .., .cons ok oks⟩
    | call name args =>
      rcases call_liftExpr ok with ⟨func, found, -⟩ | ⟨-, ys, rfl, oks⟩
      · cases (isAggregate_of_aggregate? found).symm.trans inner
      · exact ⟨.call name _ _ inner, oks⟩

theorem liftExpr_induction
    {R : Expr → List AggregateCall → GroupExpr → List AggregateCall → Prop}
    (column : ∀ name x first last, (scope.liftName name).run first = .ok (x, last) →
      R (.column name) first x last)
    (placeholder : ∀ name value calls, R (.placeholder name) calls (.literal value) calls)
    (aggregate : ∀ name args func x first last,
      scope.resolver.registry.aggregate? name = some func →
      (scope.liftResolved (.call name args)).run first = .ok (x, last) →
      R (.call name args) first x last)
    (operation : ∀ e x first last, SameOperation scope.resolver.registry e x →
      (∀ name args, e = .call name args → scope.resolver.registry.IsScalar name) →
      Runs R e.children first x.children last → R e first x last)
    {e : Expr} {x : GroupExpr} {first last : List AggregateCall}
    (ok : (scope.liftExpr e).run first = .ok (x, last)) : R e first x last := by
  refine (descends_liftExpr scope).induction (fun e x first last is ok => ?_)
    (fun e x first last ok same => operation e x first last same ?_) ok
  · cases e with
    | column name =>
      rw [liftExpr] at ok
      exact column name x first last ok
    | placeholder name =>
      simp only [liftExpr, run_bind_eq_ok, run_pure_eq_ok] at ok
      obtain ⟨value, middle, found, rfl, rfl⟩ := ok
      obtain ⟨-, rfl⟩ := run_lift_eq_ok.mp found
      exact placeholder name value first
    | call name args =>
      rcases call_liftExpr ok with ⟨func, found, ok⟩ | ⟨scalar, -⟩
      · exact aggregate name args func x first last found ok
      · cases is.symm.trans (isAggregate_of_aggregate?_none (isAggregate_of_isScalar scalar))
    | _ => cases is
  · rintro name args rfl
    rcases call_liftExpr ok with ⟨func, found, -⟩ | ⟨scalar, -⟩
    · cases (isAggregate_of_aggregate? found).symm.trans same.isLeaf
    · exact scalar

theorem lifts_liftExpr {e : Expr} {x : GroupExpr} {calls calls' : List AggregateCall}
    (stored : ∀ name, scope.resolver.schema.isStored name = true → P name)
    (ok : (scope.liftExpr e).run calls = .ok (x, calls'))
    (before : ReadOnly P calls) :
    ReadOnly P calls' ∧
      Lifts scope.resolver.registry scope.Leaf e x := by
  refine liftExpr_induction (R := fun e calls x calls' => ReadOnly P calls →
    ReadOnly P calls' ∧ Lifts scope.resolver.registry scope.Leaf e x)
    ?column ?placeholder ?aggregate ?operation ok before
  case column =>
    intro name x first last ok before
    obtain ⟨after, leaf⟩ := leaf_liftName stored ok before
    exact ⟨after, .leaf rfl leaf⟩
  case placeholder =>
    exact fun name value calls before => ⟨before, .leaf rfl (.placeholder name value)⟩
  case aggregate =>
    -- An aggregate is resolved as a whole and is still a call of the same function then, so it is
    -- lifted to a single reference.
    intro name args func x first last found ok before
    obtain ⟨after, resolved, resolves, lifts⟩ := lifts_liftResolved stored ok before
    have is := isAggregate_of_aggregate? found
    refine ⟨after, .leaf is ?_⟩
    obtain ⟨args', rfl⟩ := Resolver.resolve_call resolves
    cases lifts.leaf_of_isLeaf is with
    | aggregate _ _ index => exact .aggregate name args index
  case operation =>
    intro e x first last same _ runs before
    obtain ⟨after, lifts⟩ := runs.invariant (fun part child x u v ih => ih) before
    exact ⟨after, .operation same lifts⟩

/-! ## Levels -/

theorem outside_leaf {registry : Registry} {e node : Expr} (member : node ∈ e.outside registry)
    (is : node.isAggregateCall registry = true) : node.isLeaf registry = true := by
  cases node <;> simp_all [Expr.isLeaf, Expr.isAggregateCall]

theorem references_definition {definition : Expr} {x : GroupExpr} {registry : Registry}
    (lifts : Lifts registry (LiftedLeaf rowColumn) definition x) {target : Reference}
    (member : target ∈ x.references) :
    (∃ name, target = .column name ∧ .column name ∈ definition.outside registry) ∨
      (∃ index, target = .aggregate index) ∧
        (definition.outside registry).any (·.isAggregateCall registry) = true := by
  obtain ⟨node, within, is, y, leaf, member⟩ := lifts.references member
  cases leaf with
  | column found =>
    cases found
    exact .inl ⟨_, List.mem_singleton.mp member, within⟩
  | aggregate name args index =>
    exact .inr ⟨⟨index, List.mem_singleton.mp member⟩, List.any_eq_true.mpr ⟨_, within, is⟩⟩

theorem aggregate_of_definition {definition : Expr} {x : GroupExpr} {registry : Registry}
    (lifts : Lifts registry (LiftedLeaf rowColumn) definition x)
    (some : (definition.outside registry).any (·.isAggregateCall registry) = true) :
    ∃ index, .aggregate index ∈ x.references := by
  obtain ⟨node, within, is⟩ := List.any_eq_true.mp some
  obtain ⟨y, leaf, subset⟩ := lifts.of_leaf within (outside_leaf within is)
  cases leaf with
  | column found => cases is
  | aggregate name args index => exact ⟨index, subset (by simp)⟩

theorem column_of_definition {definition : Expr} {x : GroupExpr} {registry : Registry}
    (lifts : Lifts registry (LiftedLeaf rowColumn) definition x) {name : String}
    (member : .column name ∈ definition.outside registry) : .column name ∈ x.references := by
  obtain ⟨y, leaf, subset⟩ := lifts.of_leaf member rfl
  cases leaf with
  | column found =>
    cases found
    exact subset (by simp)

-- One statement for each thing that a node can stand for, and two for what it cannot refer to. What
-- is proved of whole expressions below is this at their leaves.

structure StandsFor (scope : FilterScope) (node : Expr) (x : GroupExpr) : Prop where
  aggregate : (∃ index, .aggregate index ∈ x.references) ↔ scope.standsForAggregate node = true
  computed : (∃ index, .output index ∈ x.references) ↔ scope.standsForComputed node = true
  column (name : String) : .column name ∈ x.references ↔ name ∈ scope.columnsOf node
  output (index : Nat) : .output index ∈ x.references →
    ∃ output, scope.outputs[index]? = some output ∧ output.kind = .computed
  shared (index : Nat) : .shared index ∉ x.references

theorem standsFor_output (outputs : ∀ output ∈ scope.outputs, output.IsLifted scope.keys)
    {name : String} {index : Nat} {output : Output} (place : scope.outputPlace? name = some index)
    (found : scope.outputs[index]? = some output) :
    scope.StandsFor (.column name) (output.asOperand index) := by
  have unstored : scope.resolver.schema.isStored name = false := by
    by_contra stored
    rw [outputPlace?, if_pos (by simpa using stored)] at place
    cases place
  have named : scope.namedOutput? name = some output := by
    rw [namedOutput?, place, Option.bind_some, found]
  have undefined : scope.definition? name = none := by
    rw [definition?, unstored, place]
    rfl
  have lifted := outputs output (List.mem_of_getElem? found)
  -- Keys, and all else that is computed without aggregates, refer to keys only.
  have plain : (∀ other, output.kind ≠ .aggregate other) → output.kind ≠ .computed →
      scope.StandsFor (.column name) output.expr := by
    intro single computed
    have keys : ∀ target ∈ output.expr.references, ∃ other, target = .key other := by
      intro target member
      rcases lifted.refers target member with is | ⟨other, rfl⟩
      · exact is
      · exact ((lifted.kind_of_aggregate member).elim computed (single other)).elim
    constructor
    · simp only [standsForAggregate, named, undefined, Option.any_some, Option.any_none,
        Bool.or_self, Bool.false_eq_true, iff_false]
      rintro ⟨index, member⟩
      cases (keys _ member).choose_spec
    · simp only [standsForComputed, named, Option.any_some, beq_iff_eq, computed, iff_false]
      rintro ⟨index, member⟩
      cases (keys _ member).choose_spec
    · simp only [columnsOf, unstored, undefined, Bool.false_eq_true, if_false, List.not_mem_nil,
        iff_false]
      exact fun name member => nomatch (keys _ member).choose_spec
    · exact fun index member => nomatch (keys _ member).choose_spec
    · exact fun index member => nomatch (keys _ member).choose_spec
  cases is : output.kind with
  | key other => simpa [Output.asOperand, is] using plain (by simp [is]) (by simp [is])
  | scalar => simpa [Output.asOperand, is] using plain (by simp [is]) (by simp [is])
  | aggregate other =>
    rw [Output.asOperand, is, lifted.expr_of_aggregate is]
    constructor <;> simp [standsForAggregate, standsForComputed, columnsOf, named, undefined,
      unstored, is]
  | computed =>
    rw [Output.asOperand, is]
    constructor <;> simp [standsForAggregate, standsForComputed, columnsOf, named, undefined,
      unstored, is, found]

theorem standsFor_definition {name : String} {definition : Expr} {x : GroupExpr}
    (defined : scope.definition? name = some definition)
    (lifts : Lifts scope.resolver.registry (LiftedLeaf rowColumn) definition x) :
    scope.StandsFor (.column name) x := by
  have known :
      ¬ (scope.resolver.schema.isStored name || (scope.outputPlace? name).isSome) = true := by
    intro known
    rw [definition?, if_pos known] at defined
    cases defined
  obtain ⟨unstored, unnamed⟩ : scope.resolver.schema.isStored name = false ∧
      scope.outputPlace? name = none := by simpa using known
  constructor
  · simp only [standsForAggregate, namedOutput?, unnamed, defined, Option.bind_none,
      Option.any_none, Option.any_some, Bool.false_or]
    constructor
    · rintro ⟨index, member⟩
      rcases references_definition lifts member with ⟨_, same, -⟩ | ⟨-, some⟩
      · cases same
      · exact some
    · exact aggregate_of_definition lifts
  · simp only [standsForComputed, namedOutput?, unnamed, Option.bind_none, Option.any_none,
      Bool.false_eq_true, iff_false]
    rintro ⟨index, member⟩
    rcases references_definition lifts member with ⟨_, same, -⟩ | ⟨⟨_, same⟩, -⟩ <;> cases same
  · intro column
    simp only [columnsOf, unstored, defined, Bool.false_eq_true, if_false, List.mem_filterMap]
    constructor
    · intro member
      rcases references_definition lifts member with ⟨_, same, within⟩ | ⟨⟨_, same⟩, -⟩
      · cases same
        exact ⟨_, within, rfl⟩
      · cases same
    · rintro ⟨node, within, named⟩
      cases node <;> simp only [Expr.columnName?, Option.some.injEq, reduceCtorEq] at named
      exact named ▸ column_of_definition lifts within
  · intro index member
    rcases references_definition lifts member with ⟨_, same, -⟩ | ⟨⟨_, same⟩, -⟩ <;> cases same
  · intro index member
    rcases references_definition lifts member with ⟨_, same, -⟩ | ⟨⟨_, same⟩, -⟩ <;> cases same

theorem standsFor_leaf (outputs : ∀ output ∈ scope.outputs, output.IsLifted scope.keys)
    {node : Expr} {x : GroupExpr} (is : node.isLeaf scope.resolver.registry = true)
    (leaf : scope.Leaf node x) : scope.StandsFor node x := by
  cases leaf with
  | placeholder name value =>
    constructor <;> simp [standsForAggregate, standsForComputed, columnsOf, isAggregate,
      Expr.isAggregateCall]
  | aggregate name args index =>
    constructor <;> simp_all [standsForAggregate, standsForComputed, columnsOf, isAggregate,
      Expr.isAggregateCall, Expr.isLeaf]
  | @stored name stored =>
    have unnamed : scope.outputPlace? name = none := by rw [outputPlace?, if_pos stored]
    have undefined : scope.definition? name = none := by rw [definition?, stored]; rfl
    constructor <;> simp [standsForAggregate, standsForComputed, columnsOf, namedOutput?, stored,
      unnamed, undefined]
  | output place found => exact standsFor_output outputs place found
  | derived defined lifts => exact standsFor_definition defined lifts

-- The three tests below are those of nodes, whereas a lifted expression is known by its leaves.

theorem isLeaf_of_standsForAggregate {node : Expr} (is : scope.standsForAggregate node = true) :
    node.isLeaf scope.resolver.registry = true := by
  cases node <;> simp_all [standsForAggregate, Expr.isLeaf, isAggregate]

theorem isLeaf_of_standsForComputed {node : Expr} (is : scope.standsForComputed node = true) :
    node.isLeaf scope.resolver.registry = true := by
  cases node <;> simp_all [standsForComputed, Expr.isLeaf]

theorem isLeaf_of_mem_columnsOf {node : Expr} {name : String}
    (member : name ∈ scope.columnsOf node) : node.isLeaf scope.resolver.registry = true := by
  cases node <;> simp_all [columnsOf, Expr.isLeaf]

section
variable (outputs : ∀ output ∈ scope.outputs, output.IsLifted scope.keys) {e : Expr} {x : GroupExpr}
  (lifts : Lifts scope.resolver.registry scope.Leaf e x)

include outputs lifts

theorem index_mem_iff {target : Nat → Reference} {stands : Expr → Bool}
    (is : ∀ {node : Expr}, stands node = true → node.isLeaf scope.resolver.registry = true)
    (agrees : ∀ {node : Expr} {y : GroupExpr}, scope.StandsFor node y →
      ((∃ index, target index ∈ y.references) ↔ stands node = true)) :
    (∃ index, target index ∈ x.references) ↔
      (e.outside scope.resolver.registry).any stands = true := by
  rw [List.any_eq_true]
  constructor
  · rintro ⟨index, member⟩
    obtain ⟨node, within, is, y, leaf, member⟩ := lifts.references member
    exact ⟨node, within, (agrees (standsFor_leaf outputs is leaf)).mp ⟨index, member⟩⟩
  · rintro ⟨node, within, stands⟩
    obtain ⟨y, leaf, subset⟩ := lifts.of_leaf within (is stands)
    obtain ⟨index, member⟩ := (agrees (standsFor_leaf outputs (is stands) leaf)).mpr stands
    exact ⟨index, subset member⟩

theorem aggregate_mem_iff :
    (∃ index, .aggregate index ∈ x.references) ↔ scope.mentionsAggregate e = true :=
  index_mem_iff outputs lifts isLeaf_of_standsForAggregate (·.aggregate)

theorem output_mem_iff :
    (∃ index, .output index ∈ x.references) ↔ scope.mentionsComputed e = true :=
  index_mem_iff outputs lifts isLeaf_of_standsForComputed (·.computed)

theorem column_mem_iff {name : String} :
    .column name ∈ x.references ↔ name ∈ scope.columnsRead e := by
  rw [columnsRead, List.mem_flatMap]
  constructor
  · intro member
    obtain ⟨node, within, is, y, leaf, member⟩ := lifts.references member
    exact ⟨node, within, ((standsFor_leaf outputs is leaf).column name).mp member⟩
  · rintro ⟨node, within, stands⟩
    have is := isLeaf_of_mem_columnsOf stands
    obtain ⟨y, leaf, subset⟩ := lifts.of_leaf within is
    exact subset (((standsFor_leaf outputs is leaf).column name).mpr stands)

theorem shared_not_mem {index : Nat} : .shared index ∉ x.references := by
  intro member
  obtain ⟨node, -, is, y, leaf, member⟩ := lifts.references member
  exact (standsFor_leaf outputs is leaf).shared index member

theorem output_computed {index : Nat} (member : .output index ∈ x.references) :
    ∃ output, scope.outputs[index]? = some output ∧ output.kind = .computed := by
  obtain ⟨node, -, is, y, leaf, member⟩ := lifts.references member
  exact (standsFor_leaf outputs is leaf).output index member

theorem level_eq_levelOf : x.level = scope.levelOf e := by
  -- The greatest level is that of the whole: first outputs are looked for, then aggregates.
  have computed := output_mem_iff outputs lifts
  have aggregate := aggregate_mem_iff outputs lifts
  unfold levelOf
  split
  · rename_i mentions
    obtain ⟨index, member⟩ := computed.mpr mentions
    exact GroupExpr.level_eq_output.mpr ⟨_, member, rfl⟩
  · rename_i unmentioned
    have early : x.level ≠ .output := by
      intro late
      obtain ⟨target, member, is⟩ := GroupExpr.level_eq_output.mp late
      cases target with
      | output index => exact unmentioned (computed.mp ⟨index, member⟩)
      | _ => cases is
    split
    · rename_i mentions
      obtain ⟨index, member⟩ := aggregate.mpr mentions
      have grouped : x.level ≠ .row := fun row =>
        nomatch GroupExpr.level_eq_row.mp row _ member
      cases level : x.level <;> simp_all
    · rename_i unmentioned
      refine GroupExpr.level_eq_row.mpr fun target member => ?_
      cases target with
      | column name => rfl
      | key index => rfl
      | aggregate index => exact absurd (aggregate.mp ⟨index, member⟩) unmentioned
      | shared index => exact absurd member (shared_not_mem outputs lifts)
      | output index => exact absurd (GroupExpr.level_eq_output.mpr ⟨_, member, rfl⟩) early

end

/-! ## Conditions -/

theorem isStored_of_mem_columnsRead {e : Expr} {name : String}
    (member : name ∈ scope.columnsRead e) : scope.resolver.schema.isStored name = true := by
  obtain ⟨node, -, member⟩ := List.mem_flatMap.mp member
  unfold columnsOf at member
  split at member
  · split at member
    · rename_i stored
      obtain rfl := List.mem_singleton.mp member
      exact stored
    · split at member
      · rename_i definition defined
        obtain ⟨part, within, named⟩ := List.mem_filterMap.mp member
        cases part <;> simp only [Expr.columnName?, Option.some.injEq, reduceCtorEq] at named
        exact named ▸ Resolver.isStored_resolve (resolve_of_definition? defined)
          (Expr.mem_columns_of_outside within)
      · cases member
  · cases member

/-- The condition that tests a conjunct. -/
structure Tests (scope : FilterScope) (conjunct : Expr) (condition : Condition) : Prop where
  lifted : ∃ calls calls', (scope.liftCondition conjunct).run calls = .ok (condition, calls')
  text : condition.text = conjunct.render
  level : condition.level = scope.levelOf conjunct
  reached : condition.expr.level = condition.level
  column (name : String) : .column name ∈ condition.expr.references →
    condition.level = .row ∧ scope.resolver.schema.isStored name = true
  output (index : Nat) : .output index ∈ condition.expr.references →
    ∃ output, scope.outputs[index]? = some output ∧ output.kind = .computed
  shared (index : Nat) : .shared index ∉ condition.expr.references

theorem groupReference_eq_ok {text : String} {target : Reference} {x : GroupExpr}
    (ok : scope.groupReference text target = .ok x) :
    ∃ other, x = .reference other ∧ other.level = target.level ∧ (∀ name, other ≠ .column name) ∧
      (∀ index, other = .output index ∨ other = .shared index → target = other) := by
  unfold groupReference at ok
  split at ok
  · split at ok
    · cases ok
      exact ⟨_, rfl, rfl, by simp, by simp⟩
    · cases ok
  · rename_i other
    cases ok
    exact ⟨target, rfl, rfl, other, fun _ _ => rfl⟩

variable {conjunct : Expr} {calls calls' : List AggregateCall}

theorem tests_liftCondition (outputs : ∀ output ∈ scope.outputs, output.IsLifted scope.keys)
    {condition : Condition} (stored : ∀ name, scope.resolver.schema.isStored name = true → P name)
    (ok : (scope.liftCondition conjunct).run calls = .ok (condition, calls'))
    (before : ReadOnly P calls) :
    ReadOnly P calls' ∧ scope.Tests conjunct condition := by
  have origin := ok
  simp only [liftCondition, run_bind_eq_ok] at ok
  obtain ⟨x, middle, lifted, ok⟩ := ok
  obtain ⟨after, lifts⟩ := lifts_liftExpr stored lifted before
  have level := level_eq_levelOf outputs lifts
  split at ok
  · rename_i row
    obtain ⟨rfl, rfl⟩ := run_pure_eq_ok.mp ok
    have reads : ∀ name, .column name ∈ x.references →
        scope.resolver.schema.isStored name = true := fun name member =>
      isStored_of_mem_columnsRead ((column_mem_iff outputs lifts).mp member)
    exact ⟨after, ⟨calls, _, origin⟩, rfl, row.symm.trans level, row,
      fun name member => ⟨rfl, reads name member⟩,
      fun index => output_computed outputs lifts, fun index => shared_not_mem outputs lifts⟩
  · rename_i late
    simp only [run_bind_eq_ok] at ok
    obtain ⟨y, last, run, ok⟩ := ok
    obtain ⟨rfl, rfl⟩ := run_pure_eq_ok.mp ok
    obtain ⟨placed, rfl⟩ := run_lift_eq_ok.mp run
    obtain ⟨g, given, rfl⟩ := GroupExpr.substitute_of_substituteM placed
    -- A key is as early as the column it stands for.
    have source : ∀ target ∈ (x.substitute g).references, (∀ name, target ≠ .column name) ∧
        ∀ index, target = .output index ∨ target = .shared index → target ∈ x.references := by
      intro target member
      obtain ⟨before, refers, member⟩ := GroupExpr.mem_references_substitute.mp member
      obtain ⟨other, same, -, row, stays⟩ := groupReference_eq_ok (given before refers)
      rw [same, GroupExpr.references_reference] at member
      obtain rfl := List.mem_singleton.mp member
      exact ⟨row, fun index is => stays index is ▸ refers⟩
    refine ⟨after, ⟨calls, _, origin⟩, rfl, level,
      GroupExpr.level_substitute fun target refers => ?_,
      fun name member => absurd rfl ((source _ member).1 name), fun index member => ?_,
      fun index member => ?_⟩
    · obtain ⟨other, same, reached, -⟩ := groupReference_eq_ok (given target refers)
      rw [same, ← reached]
      cases other <;> rfl
    · exact output_computed outputs lifts ((source _ member).2 index (.inl rfl))
    · exact shared_not_mem outputs lifts ((source _ member).2 index (.inr rfl))

/-- A conjunct is refused if it is mixed, and only then. -/
theorem liftCondition_mixed (outputs : ∀ output ∈ scope.outputs, output.IsLifted scope.keys)
    {x : GroupExpr} (lifted : (scope.liftExpr conjunct).run calls = .ok (x, calls')) :
    (scope.liftCondition conjunct).run calls = .error (.mixedFilterLevels conjunct.render) ↔
      scope.IsMixed conjunct := by
  obtain ⟨-, lifts⟩ := lifts_liftExpr (P := fun _ => True) (fun _ _ => trivial) lifted
    fun _ _ _ _ => trivial
  rw [IsMixed, ← level_eq_levelOf outputs lifts, liftCondition, StateT.run_bind, lifted]
  simp only [bind, Except.bind]
  split
  · rename_i row
    refine iff_of_false (fun failed => ?_) fun ⟨late, _⟩ => late row
    cases failed
  · rename_i late
    -- Keys are put in the place of columns, which fails exactly at a column that is no key.
    cases placed : x.substituteM (scope.groupReference conjunct.render) with
    | ok y =>
      refine iff_of_false (fun failed => ?_) fun ⟨_, column, read, absent⟩ => ?_
      · cases failed
      · obtain ⟨g, given, -⟩ := GroupExpr.substitute_of_substituteM placed
        have found := given _ ((column_mem_iff outputs lifts).mpr read)
        simp [groupReference, absent] at found
    | error fault =>
      obtain ⟨target, member, failed⟩ := GroupExpr.error_of_substituteM placed
      unfold groupReference at failed
      split at failed
      · rename_i column
        split at failed
        · cases failed
        · rename_i absent
          cases failed
          exact iff_of_true rfl ⟨late, column, (column_mem_iff outputs lifts).mp member, absent⟩
      · cases failed

end FilterScope

end Rollup
