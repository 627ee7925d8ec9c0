import Rollup.Proofs.Expr.Parser
import Rollup.Proofs.Group.Resolution
import Rollup.Proofs.Staging.Landing
import Rollup.Proofs.Staging.Null

/-! Comparisons with a null value become tests for null.

Every pass on the way from a query to its stages keeps the operators and takes null values to null
values. So a comparison with one is still such a comparison when it is written, and the test that is
written instead has what became of the other operand.
-/

set_option autoImplicit false

namespace Rollup

/-- Whether a test for equality is one for its opposite. -/
def BinaryOp.negates? : BinaryOp → Option Bool
  | .eq => some false
  | .ne => some true
  | _ => none

/-- An operand is tested for equality with a null value that is on either side of it. -/
inductive TestsNull {α : Type} (binary : BinaryOp → α → α → α) (IsNull : α → Prop) (operand : α)
    (negated : Bool) : α → Prop
  | right {op : BinaryOp} {other : α} (test : op.negates? = some negated) (null : IsNull other) :
      TestsNull binary IsNull operand negated (binary op operand other)
  | left {op : BinaryOp} {other : α} (test : op.negates? = some negated) (null : IsNull other) :
      TestsNull binary IsNull operand negated (binary op other operand)

/-- What keeps operators and takes null values to null values keeps tests for null. -/
theorem TestsNull.carry {α β : Type} {binary : BinaryOp → α → α → α}
    {binary' : BinaryOp → β → β → β} {IsNull : α → Prop} {IsNull' : β → Prop} {operand node : α}
    {negated : Bool} {y : β} (tests : TestsNull binary IsNull operand negated node)
    (R : α → β → Prop) (goes : R node y)
    (operators : ∀ op left right y, R (binary op left right) y →
      ∃ left' right', R left left' ∧ R right right' ∧ y = binary' op left' right')
    (nulls : ∀ other y, IsNull other → R other y → IsNull' y) :
    ∃ operand', R operand operand' ∧ TestsNull binary' IsNull' operand' negated y := by
  cases tests with
  | right test null =>
    obtain ⟨operand', other', first, second, rfl⟩ := operators _ _ _ y goes
    exact ⟨operand', first, .right test (nulls _ _ null second)⟩
  | left test null =>
    obtain ⟨other', operand', first, second, rfl⟩ := operators _ _ _ y goes
    exact ⟨operand', second, .left test (nulls _ _ null first)⟩

/-! ## Resolution -/

namespace Expr
variable {operand e x : Expr} {negated : Bool}

/-- The test of an operand that stands before `is null` or `is not null`. -/
theorem testsNull_ofTokens {tokens : List Token} (derives : Derives (.chain .sum) tokens operand)
    (negated : Bool) :
    ∃ test, ofTokens (tokens ++ .is :: negation negated ++ [.literal .null]) = .ok test ∧
      TestsNull binary (· = .literal .null) operand negated test := by
  have conjunct : Derives (.chain .and) _ _ := .operand (.positive (.null negated derives))
  have whole : Derives (.chain .or) _ _ := .operand conjunct
  exact ⟨_, whole.ofTokens, .right (by cases negated <;> rfl) rfl⟩

theorem testsNull_of_same (equal : x.same e = true)
    (tests : TestsNull binary (· = .literal .null) operand negated e) :
    ∃ operand', operand'.same operand = true ∧
      TestsNull binary (· = .literal .null) operand' negated x := by
  refine tests.carry (fun a b : Expr => b.same a = true) equal (fun op left right y equal => ?_)
    fun other y null equal => ?_
  · cases same_iff.mp equal with
    | binary first second => exact ⟨_, _, same_iff.mpr first, same_iff.mpr second, rfl⟩
  · subst null
    cases same_iff.mp equal with
    | literal same => exact congrArg literal (Literal.eq_null_of_same same)

end Expr

namespace Resolver
variable {r : Resolver} {operand e x : Expr} {negated : Bool}

/-- An expression that is a null value when the names in it are resolved. -/
def InlinesNull (r : Resolver) (e : Expr) : Prop := r.inline e = .ok (.literal .null)

theorem inlinesNull_literal : r.InlinesNull (.literal .null) :=
  (resolve_eq_ok.mp (resolve_literal .null)).1

theorem testsNull_inline (ok : r.inline e = .ok x)
    (tests : TestsNull .binary r.InlinesNull operand negated e) :
    ∃ operand', r.inline operand = .ok operand' ∧
      TestsNull .binary (· = .literal .null) operand' negated x :=
  tests.carry (fun a b => r.inline a = .ok b) ok (fun _ _ _ _ => inline_binary.mp)
    fun _ _ null ok => Except.ok.inj (ok.symm.trans null)

theorem testsNull_aggregateMetrics
    (tests : TestsNull .binary (· = .literal .null) operand negated e) :
    TestsNull .binary (· = .literal .null) (r.aggregateMetrics operand) negated
      (r.aggregateMetrics e) := by
  cases tests with
  | right test null =>
    rw [null, aggregateMetrics, aggregateMetrics]
    exact .right test rfl
  | left test null =>
    rw [null, aggregateMetrics, aggregateMetrics]
    exact .left test rfl

end Resolver

/-! ## Lifting -/

section
variable {registry : Registry} {calls : List AggregateCall} {operand e : Expr} {x : GroupExpr}
  {negated : Bool}

theorem Collector.binary {f : Expr → Collecting GroupExpr} (collector : Collector registry f)
    (each : ∀ op left right, f (.binary op left right) =
      (do return .binary op (← f left) (← f right))) {op : BinaryOp} {left right : Expr}
    (collects : Collects calls (f (.binary op left right)) x) :
    ∃ left' right', Collects calls (f left) left' ∧ Collects calls (f right) right' ∧
      x = .binary op left' right' := by
  obtain ⟨first, last, run, kept⟩ := collects
  simp only [each, run_bind_eq_ok, run_pure_eq_ok] at run
  obtain ⟨l, middle, okl, r, end_, okr, rfl, rfl⟩ := run
  exact ⟨l, r, ⟨first, middle, okl, (collector.adds okr).kept.trans kept⟩, ⟨middle, _, okr, kept⟩,
    rfl⟩

theorem testsNull_lift {onColumn : String → Except CompileError GroupExpr}
    (collects : Collects calls (lift registry onColumn e) x)
    (tests : TestsNull .binary (· = .literal .null) operand negated e) :
    ∃ operand', Collects calls (lift registry onColumn operand) operand' ∧
      TestsNull .binary (· = .literal .null) operand' negated x := by
  refine tests.carry (fun a b => Collects calls (lift registry onColumn a) b) collects
    (fun op left right y => (collector_lift onColumn).binary fun _ _ _ => by rw [lift])
    fun other y null collects => ?_
  obtain ⟨first, last, run, -⟩ := collects
  rw [null, lift, run_pure_eq_ok] at run
  exact run.1.symm

namespace FilterScope
variable {scope : FilterScope} {condition : Condition}

/-- An expression that is a null value in a filter. -/
def LiftsNull (scope : FilterScope) (e : Expr) : Prop :=
  ∀ calls, (scope.liftExpr e).run calls = .ok (.literal .null, calls)

theorem liftsNull_literal : scope.LiftsNull (.literal .null) := by
  intro calls
  rw [liftExpr]
  rfl

theorem testsNull_liftExpr (collects : Collects calls (scope.liftExpr e) x)
    (tests : TestsNull .binary scope.LiftsNull operand negated e) :
    ∃ operand', Collects calls (scope.liftExpr operand) operand' ∧
      TestsNull .binary (· = .literal .null) operand' negated x := by
  refine tests.carry (fun a b => Collects calls (scope.liftExpr a) b) collects
    (fun op left right y => (collector_liftExpr scope).binary fun _ _ _ => by rw [liftExpr])
    fun other y null collects => ?_
  obtain ⟨first, last, run, -⟩ := collects
  rw [null first] at run
  cases run
  rfl

theorem testsNull_of_places {operand e placed : GroupExpr}
    (places : scope.Places condition e placed)
    (tests : TestsNull .binary (· = .literal .null) operand negated e) :
    ∃ operand', scope.Places condition operand operand' ∧
      TestsNull .binary (· = .literal .null) operand' negated placed := by
  refine tests.carry (scope.Places condition) places (fun op left right y places => ?_)
    fun other y null places => ?_
  · unfold Places at places ⊢
    split at places
    · exact ⟨left, right, by simp [*], by simp [*], places⟩
    · simp only [GroupExpr.substituteM, bind_eq_ok, pure_eq_ok] at places
      obtain ⟨l, okl, r, okr, rfl⟩ := places
      exact ⟨l, r, by simp [*], by simp [*], rfl⟩
  · subst null
    unfold Places at places
    split at places
    · exact places
    · cases places
      rfl

end FilterScope

end

/-! ## Sharing -/

namespace GroupExpr
variable {found : List GroupExpr} {part operand e : GroupExpr} {negated : Bool}

/-- Where a null value is left, there has been one: what is shared is compound. -/
theorem eq_null_of_unshare (kept : ∀ shared ∈ found, shared.isCompound = true)
    (same : (part.unshare found).same (.literal .null) = true) : part = .literal .null := by
  cases part with
  | literal value =>
    cases same_iff.mp same with
    | literal same => exact congrArg literal (Literal.eq_null_of_same same)
  | reference target =>
    rw [unshare, substitute_reference] at same
    cases target with
    | shared index =>
      rw [definitionIn] at same
      cases there : found[index]? with
      | none =>
        rw [there] at same
        cases same_iff.mp same
      | some shared =>
        have compound := kept shared (List.mem_of_getElem? there)
        rw [there] at same
        dsimp only [Option.getD_some] at same
        cases shared with
        | reference | literal => cases compound
        | _ => cases same_iff.mp same
    | _ => cases same_iff.mp same
  | inList =>
    rw [unshare, substitute_inList] at same
    cases same_iff.mp same
  | call =>
    rw [unshare, substitute_call] at same
    cases same_iff.mp same
  | _ => cases same_iff.mp same

/-- What is left of a test for null, where it is not shared as a whole, tests what is left of its
operand. -/
theorem testsNull_of_unshare (kept : ∀ shared ∈ found, shared.isCompound = true)
    (place : part.isPlaceholder = false) (same : (part.unshare found).same e = true)
    (tests : TestsNull binary (· = .literal .null) operand negated e) :
    ∃ operand', (operand'.unshare found).same operand = true ∧
      TestsNull binary (· = .literal .null) operand' negated part := by
  have operators : ∀ {op : BinaryOp} {left right : GroupExpr},
      (part.unshare found).same (.binary op left right) = true → ∃ left' right',
        (left'.unshare found).same left = true ∧ (right'.unshare found).same right = true ∧
          part = .binary op left' right' := by
    intro op left right same
    cases part with
    | binary op' left' right' =>
      cases same_iff.mp same with
      | binary first second => exact ⟨left', right', same_iff.mpr first, same_iff.mpr second, rfl⟩
    | reference target =>
      cases target with
      | shared => cases place
      | _ => cases same_iff.mp same
    | inList =>
      rw [unshare, substitute_inList] at same
      cases same_iff.mp same
    | call =>
      rw [unshare, substitute_call] at same
      cases same_iff.mp same
    | _ => cases same_iff.mp same
  cases tests with
  | right test null =>
    subst null
    obtain ⟨operand', other, first, second, rfl⟩ := operators same
    exact ⟨operand', first, .right test (eq_null_of_unshare kept second)⟩
  | left test null =>
    subst null
    obtain ⟨other, operand', first, second, rfl⟩ := operators same
    exact ⟨operand', second, .left test (eq_null_of_unshare kept first)⟩

end GroupExpr

/-! ## Writing -/

namespace Renderer
variable {x written : Sql.Expr} {negated : Bool}

theorem isNull_of_testsNull (tests : TestsNull combine (· = .literal .null) x negated written) :
    written = .isNull x negated := by
  have test : ∀ {op : BinaryOp} {left right : Sql.Expr}, op.negates? = some negated →
      ∃ op', combine op left right = equality op' negated left right := by
    intro op left right test
    cases op with
    | eq =>
      cases test
      exact ⟨.eq, rfl⟩
    | ne =>
      cases test
      exact ⟨.ne, rfl⟩
    | _ => cases test
  cases tests with
  | right is null =>
    subst null
    obtain ⟨op', same⟩ := test is
    exact same
  | left is null =>
    subst null
    obtain ⟨op', same⟩ := test is
    rw [same, equality]
    split
    · rename_i null
      rw [eq_of_isNull null]
    · rfl

theorem testsNull_write {α : Type} {binary : BinaryOp → α → α → α} {null operand e : α}
    (write : α → Except CompileError Sql.Expr)
    (operators : ∀ op left right, write (binary op left right) =
      (do return combine op (← write left) (← write right)))
    (nulls : write null = .ok (.literal .null)) (ok : write e = .ok written)
    (tests : TestsNull binary (· = null) operand negated e) :
    ∃ x, write operand = .ok x ∧ written = .isNull x negated := by
  have carried : ∃ x, write operand = .ok x ∧
      TestsNull combine (· = .literal .null) x negated written := by
    refine tests.carry (fun a b => write a = .ok b) ok (fun op left right y ok => ?_)
      fun other y null ok => ?_
    · simp only [operators, bind_eq_ok, pure_eq_ok] at ok
      obtain ⟨l, okl, r, okr, rfl⟩ := ok
      exact ⟨l, r, okl, okr, rfl⟩
    · subst null
      exact Except.ok.inj (ok.symm.trans nulls)
  obtain ⟨x, ok, tests⟩ := carried
  exact ⟨x, ok, isNull_of_testsNull tests⟩

theorem testsNull_rowExpr {operand e : Expr} (ok : rowExpr e = .ok written)
    (tests : TestsNull .binary (· = .literal .null) operand negated e) :
    ∃ x, rowExpr operand = .ok x ∧ written = .isNull x negated :=
  testsNull_write rowExpr (fun _ _ _ => by rw [rowExpr]) rfl ok tests

theorem testsNull_render {r : Renderer} {scope : Scope} {operand e : GroupExpr}
    (ok : r.render scope e = .ok written)
    (tests : TestsNull .binary (· = .literal .null) operand negated e) :
    ∃ x, r.render scope operand = .ok x ∧ written = .isNull x negated :=
  testsNull_write (r.render scope) (fun _ _ _ => by rw [render, groupExpr]; rfl) rfl ok tests

end Renderer

/-! ## Filters -/

theorem Expr.outside_conjuncts {registry : Registry} {filter node : Expr}
    (out : node ∈ filter.outside registry) :
    (∃ conjunct ∈ filter.conjuncts, node ∈ conjunct.outside registry) ∨
      ∃ left right, node = .binary .and left right := by
  fun_induction conjuncts filter with
  | case1 left right ihl ihr =>
    rcases mem_outside_binary.mp out with rfl | out | out
    · exact .inr ⟨left, right, rfl⟩
    · exact (ihl out).imp_left fun found =>
        found.imp fun _ known => ⟨List.mem_append_left _ known.1, known.2⟩
    · exact (ihr out).imp_left fun found =>
        found.imp fun _ known => ⟨List.mem_append_right _ known.1, known.2⟩
  | case2 e => exact .inl ⟨e, List.mem_singleton_self e, out⟩

/-! ## Queries -/

namespace Compiler

section
variable (c : Compiler) (query : Query) (seconds : Option Int) (a : Analysis)
  (carried : List String)

/-- What an expression of a query is written as: in an argument of an aggregate, in an output, in a
condition, or in the definition of a column that a condition names. -/
inductive WrittenAs : Expr → Sql.Expr → Prop
  | argument {e resolved kept : Expr} {x : Sql.Expr} :
      Resolver.inline ⟨c.schema, c.registry, seconds⟩ e = .ok resolved →
      kept.same resolved = true → Renderer.rowExpr kept = .ok x → WrittenAs e x
  | output {e resolved whole : Expr} {lifted rest : GroupExpr} {scope : Scope} {x : Sql.Expr} :
      Resolver.inline ⟨c.schema, c.registry, seconds⟩ e = .ok resolved →
      Collects a.calls (lift c.registry (keyReference a.keys whole)
        (Resolver.aggregateMetrics ⟨c.schema, c.registry, seconds⟩ resolved)) lifted →
      (rest.unshare ((c.sharing a).2.map (·.expr))).same lifted = true →
      (c.builder query seconds a carried).renderer.render scope rest = .ok x → WrittenAs e x
  | condition {e : Expr} {condition : Condition} {lifted placed : GroupExpr} {scope : Scope}
      {x : Sql.Expr} : condition ∈ a.conditions →
      Collects a.calls ((c.filterScope seconds a.keys a.outputs).liftExpr e) lifted →
      (c.filterScope seconds a.keys a.outputs).Places condition lifted placed →
      (c.builder query seconds a carried).renderer.render scope placed = .ok x → WrittenAs e x
  | definition {e resolved : Expr} {condition : Condition} {lifted placed : GroupExpr}
      {scope : Scope} {x : Sql.Expr} : condition ∈ a.conditions →
      Resolver.inline ⟨c.schema, c.registry, seconds⟩ e = .ok resolved →
      Collects a.calls (lift c.registry FilterScope.rowColumn resolved) lifted →
      (c.filterScope seconds a.keys a.outputs).Places condition lifted placed →
      (c.builder query seconds a carried).renderer.render scope placed = .ok x → WrittenAs e x

/-- A query compares an operand with a null value: in a selector or a definition that this reaches,
in its filter, or in what the filter reaches by an aggregate or the name of a derived column. -/
inductive ComparesNull (operand : Expr) (negated : Bool) : Prop
  | selector {selector : Selector} {part : Expr} : selector ∈ query.selectors →
      Resolver.Reaches ⟨c.schema, c.registry, seconds⟩ selector.expr part →
      TestsNull Expr.binary (Resolver.InlinesNull ⟨c.schema, c.registry, seconds⟩) operand negated
        part → ComparesNull operand negated
  | filter {filter part : Expr} : query.filter = some filter → part ∈ filter.outside c.registry →
      TestsNull Expr.binary (c.filterScope seconds a.keys a.outputs).LiftsNull operand negated
        part → ComparesNull operand negated
  | definition {filter whole part : Expr} : query.filter = some filter →
      whole ∈ filter.outside c.registry →
      (c.filterScope seconds a.keys a.outputs).IsResolved whole →
      Resolver.Reaches ⟨c.schema, c.registry, seconds⟩ whole part →
      TestsNull Expr.binary (Resolver.InlinesNull ⟨c.schema, c.registry, seconds⟩) operand negated
        part → ComparesNull operand negated

end

variable {c : Compiler} {query : Query} {seconds : Option Int} {a : Analysis}
  {carried : List String} {stages : List Stage} {operand : Expr} {negated : Bool}

def TestLands (c : Compiler) (query : Query) (seconds : Option Int) (a : Analysis)
    (carried : List String) (stages : List Stage) (operand : Expr) (negated : Bool) : Prop :=
  ∃ x, c.WrittenAs query seconds a carried operand x ∧
    ∃ stage ∈ stages, stage.Writes (.isNull x negated)

theorem exists_conjunct {filter node : Expr} (given : query.filter = some filter)
    (out : node ∈ filter.outside c.registry)
    (other : ∀ left right, node ≠ .binary .and left right) :
    ∃ conjunct ∈ query.conjuncts, node ∈ conjunct.outside c.registry := by
  rw [Query.conjuncts, given]
  rcases Expr.outside_conjuncts out with inside | ⟨left, right, is⟩
  · exact inside
  · exact absurd is (other left right)

namespace Prepares
variable (prepares : c.Prepares query seconds a carried) (needs : c.registry.NeedsArguments)
  (built : (c.builder query seconds a carried).Built (c.layoutOf a) stages)
include prepares needs built

theorem test_of_argument {database : Sql.Database} (dialect : c.dialect = database.dialect)
    {resolved y : Expr}
    (inlined : Resolver.inline ⟨c.schema, c.registry, seconds⟩ operand = .ok resolved)
    (argument : IsArgument a.calls y)
    (tests : TestsNull Expr.binary (· = .literal .null) resolved negated y) :
    c.TestLands query seconds a carried stages operand negated := by
  obtain ⟨call, member, arg, given, part, within, equal⟩ := argument
  obtain ⟨kept, same, tests⟩ := Expr.testsNull_of_same equal tests
  obtain ⟨written, ok, lands⟩ :=
    prepares.argument_lands needs built dialect member given part within
  obtain ⟨x, row, rfl⟩ := Renderer.testsNull_rowExpr ok tests
  exact ⟨x, .argument inlined same row, lands⟩

theorem test_of_output {output : Output} (member : output ∈ a.outputs) {resolved whole : Expr}
    {lifted node : GroupExpr}
    (inlined : Resolver.inline ⟨c.schema, c.registry, seconds⟩ operand = .ok resolved)
    (collects : Collects a.calls (lift c.registry (keyReference a.keys whole)
      (Resolver.aggregateMetrics ⟨c.schema, c.registry, seconds⟩ resolved)) lifted)
    (within : node ∈ output.expr.nodes)
    (tests : TestsNull GroupExpr.binary (· = .literal .null) lifted negated node) :
    c.TestLands query seconds a carried stages operand negated := by
  have selected : output.isKey = false := by
    unfold Output.isKey
    split
    · -- A key is a reference, which tests nothing.
      rename_i index is
      rw [((prepares.analysis.outputs output member).of_key is).1] at within
      obtain rfl := List.mem_singleton.mp within
      cases tests
    · rfl
  obtain ⟨rest, scope, written, place, same, ok, lands⟩ :=
    prepares.output_lands needs built member selected node within
  have compound : ∀ shared ∈ (c.sharing a).2.map (·.expr), shared.isCompound = true := by
    intro shared listed
    obtain ⟨part, among, rfl⟩ := List.mem_map.mp listed
    exact (sharing_of_sound prepares.analysis).compound part among
  obtain ⟨inner, same, tests⟩ := GroupExpr.testsNull_of_unshare compound place same tests
  obtain ⟨x, rendered, rfl⟩ := Renderer.testsNull_render ok tests
  exact ⟨x, .output inlined collects same rendered, lands⟩

theorem written_of_condition {condition : Condition} (member : condition ∈ a.conditions)
    {lifted node : GroupExpr} (within : node ∈ condition.expr.nodes)
    (tests : TestsNull GroupExpr.binary (· = .literal .null) lifted negated node) :
    ∃ scope x, (c.builder query seconds a carried).renderer.render scope lifted = .ok x ∧
      ∃ stage ∈ stages, stage.Writes (.isNull x negated) := by
  obtain ⟨scope, written, ok, lands⟩ := prepares.condition_lands needs built member node within
  obtain ⟨x, rendered, rfl⟩ := Renderer.testsNull_render ok tests
  exact ⟨scope, x, rendered, lands⟩

variable {database : Sql.Database} (dialect : c.dialect = database.dialect)
  (single : c.registry.SingleArguments)

include dialect single in
theorem test_of_selector {selector : Selector} (member : selector ∈ query.selectors) {part : Expr}
    (reaches : Resolver.Reaches ⟨c.schema, c.registry, seconds⟩ selector.expr part)
    (tests : TestsNull Expr.binary (Resolver.InlinesNull ⟨c.schema, c.registry, seconds⟩) operand
      negated part) : c.TestLands query seconds a carried stages operand negated := by
  obtain ⟨output, listed, resolved, whole, resolves, collects⟩ :=
    output_of_selector prepares.analyzed member
  obtain ⟨y, within, inlined⟩ := reaches.inlined (Resolver.resolve_eq_ok.mp resolves).1
  obtain ⟨operand', inlined, tests⟩ := Resolver.testsNull_inline inlined tests
  have lifted : ∀ node ∈ resolved.outside c.registry, ∃ z ∈ output.expr.nodes,
      Collects a.calls (lift c.registry (keyReference a.keys whole)
        (Resolver.aggregateMetrics ⟨c.schema, c.registry, seconds⟩ node)) z :=
    fun node out => (collector_lift _).part collects _ (Resolver.outside_aggregateMetrics node out)
  rcases Expr.outside_or_argument c.registry within with
    out | ⟨name, args, arg, called, is, given, within⟩
  · obtain ⟨z, within, collects⟩ := lifted y out
    obtain ⟨inner, collects, tests⟩ :=
      testsNull_lift collects (Resolver.testsNull_aggregateMetrics tests)
    exact prepares.test_of_output needs built listed inlined collects within tests
  · obtain ⟨z, -, collects⟩ := lifted _ called
    rw [Resolver.aggregateMetrics_of_isAggregate is] at collects
    obtain ⟨spec, found, accepts⟩ :=
      (Resolver.isClean_resolve resolves).accepted name args (Expr.outside_subset_nodes called)
    have argument := isArgument_of_call single found accepts is collects given within
    exact prepares.test_of_argument needs built dialect inlined argument tests

theorem test_of_filter {filter part : Expr} (given : query.filter = some filter)
    (out : part ∈ filter.outside c.registry)
    (tests : TestsNull Expr.binary (c.filterScope seconds a.keys a.outputs).LiftsNull operand
      negated part) : c.TestLands query seconds a carried stages operand negated := by
  obtain ⟨conjunct, listed, out⟩ := exists_conjunct given out fun left right is => by
    subst is
    cases tests with | _ test => cases test
  obtain ⟨condition, member, x, collects, places⟩ := condition_of_conjunct prepares.analyzed listed
  obtain ⟨y, within, collects⟩ := (collector_liftExpr _).part collects part out
  obtain ⟨lifted, collects, tests⟩ := FilterScope.testsNull_liftExpr collects tests
  obtain ⟨z, within, places⟩ := FilterScope.part_of_places places y within
  obtain ⟨placed, places, tests⟩ := FilterScope.testsNull_of_places places tests
  obtain ⟨scope, x, rendered, lands⟩ :=
    prepares.written_of_condition needs built member within tests
  exact ⟨x, .condition member collects places rendered, lands⟩

include dialect single in
theorem test_of_definition {filter whole part : Expr} (given : query.filter = some filter)
    (out : whole ∈ filter.outside c.registry)
    (is : (c.filterScope seconds a.keys a.outputs).IsResolved whole)
    (reaches : Resolver.Reaches ⟨c.schema, c.registry, seconds⟩ whole part)
    (tests : TestsNull Expr.binary (Resolver.InlinesNull ⟨c.schema, c.registry, seconds⟩) operand
      negated part) : c.TestLands query seconds a carried stages operand negated := by
  obtain ⟨conjunct, listed, out⟩ := exists_conjunct given out fun left right same => by
    subst same
    cases is
  obtain ⟨condition, member, x, collects, places⟩ := condition_of_conjunct prepares.analyzed listed
  obtain ⟨y, inside, collects⟩ := (collector_liftExpr _).part collects whole out
  obtain ⟨resolved, resolves, collects⟩ := FilterScope.resolved_of_liftExpr is collects
  obtain ⟨node, within, inlined⟩ := reaches.inlined (Resolver.resolve_eq_ok.mp resolves).1
  obtain ⟨operand', inlined, tests⟩ := Resolver.testsNull_inline inlined tests
  have accepted := (Resolver.isClean_resolve resolves).accepted
  rcases lifted_or_argument single accepted collects within with
    ⟨z, within, collects⟩ | argument
  · obtain ⟨lifted, collects, tests⟩ := testsNull_lift collects tests
    obtain ⟨w, within, places⟩ :=
      FilterScope.part_of_places places z (GroupExpr.nodes_subset inside within)
    obtain ⟨placed, places, tests⟩ := FilterScope.testsNull_of_places places tests
    obtain ⟨scope, x, rendered, lands⟩ :=
      prepares.written_of_condition needs built member within tests
    exact ⟨x, .definition member inlined collects places rendered, lands⟩
  · exact prepares.test_of_argument needs built dialect inlined argument tests

end Prepares

end Compiler

/-- A test for null is written into what some stage of a plan computes or tests. -/
def Plan.TestsNull (plan : Plan) (x : Sql.Expr) (negated : Bool) : Prop :=
  ∃ stage ∈ plan.stages, ∃ e ∈ stage.clauses, .isNull x negated ∈ e.nodes

theorem Stage.Writes.isNull {stage : Stage} {x : Sql.Expr} {negated : Bool}
    (writes : stage.Writes (.isNull x negated)) :
    ∃ e ∈ stage.clauses, .isNull x negated ∈ e.nodes := by
  obtain ⟨e, member, within⟩ := writes
  rcases List.mem_cons.mp (within (Sql.Expr.self_mem_nodes _)) with same | inside
  · cases same
  · exact ⟨e, member, inside⟩

namespace Compiler
variable {c : Compiler} {query : Query} {plan : Plan}

/-- In the stages of an accepted query nothing is compared with a null value, and whatever the query
compares with one is tested for null there, with the negation that is written. A comparison with a
null value is also what `is null` and `is not null` are read as. -/
theorem testsNull_plan {database : Sql.Database} (dialect : c.dialect = database.dialect)
    (registry : c.registry = .builtin) (ok : c.plan query = .ok plan) :
    (∀ stage ∈ plan.stages, ∀ e ∈ stage.exprs, e.IsNullSafe) ∧
      (∃ seconds a carried stages orderBy,
        c.Accepts query plan seconds a carried stages orderBy ∧
          ∀ operand negated, c.ComparesNull query seconds a operand negated →
            ∃ x, c.WrittenAs query seconds a carried operand x ∧ plan.TestsNull x negated) ∧
      ∀ tokens operand negated, Expr.Derives (.chain .sum) tokens operand → ∃ test,
        Expr.ofTokens (tokens ++ .is :: Expr.negation negated ++ [.literal .null]) = .ok test ∧
          TestsNull Expr.binary (· = .literal .null) operand negated test := by
  obtain ⟨seconds, a, carried, stages, orderBy, accepts⟩ := accepts_of_plan ok
  refine ⟨accepts.isNullSafe dialect, ⟨seconds, a, carried, stages, orderBy, accepts, ?_⟩,
    fun tokens operand negated derives => Expr.testsNull_ofTokens derives negated⟩
  have needs : c.registry.NeedsArguments := registry ▸ needsArguments_builtin
  have single : c.registry.SingleArguments := registry ▸ singleArguments_builtin
  have prepares : c.Prepares query seconds a carried := accepts.toPrepares
  have stages_eq : plan.stages = finish orderBy (query.limit.map rowWindow) stages :=
    congrArg Plan.stages accepts.plan
  obtain ⟨-, -, built⟩ := StageBuilder.built_build accepts.built
  intro operand negated compares
  have lands : c.TestLands query seconds a carried stages operand negated := by
    cases compares with
    | selector member reaches tests =>
      exact prepares.test_of_selector needs built dialect single member reaches tests
    | filter given out tests => exact prepares.test_of_filter needs built given out tests
    | definition given out is reaches tests =>
      exact prepares.test_of_definition needs built dialect single given out is reaches tests
  obtain ⟨x, written, stage, listed, writes⟩ := lands
  obtain ⟨finished, among, writes⟩ := writes_finish listed writes
  exact ⟨x, written, finished, stages_eq ▸ among, writes.isNull⟩

end Compiler

/-! ## Null values behind names -/

def DerivedColumn.unset : DerivedColumn := ⟨"unset", "null", .literal .null⟩

def DerivedColumn.measured : DerivedColumn :=
  ⟨"measured", "cpu is not null", .binary .ne (.column "cpu") (.literal .null)⟩

/-- The hosts, some of which have not been measured. -/
def Compiler.patchyHosts : Compiler :=
  { hosts with schema := { Schema.hosts with derived := [.unset, .measured] } }

/-- Whether hosts have been measured, with tests in an argument, in an output, and in conditions on
rows and on groups. -/
def Query.patchyLoad : Query where
  selectors := [⟨.column "host", none⟩, ⟨.call "count" [.column "measured"], some "measures"⟩,
    ⟨.binary .eq (.column "unset") (.call "max" [.column "cpu"]), some "idle"⟩]
  filter := some (.binary .and (.binary .ne (.column "region") (.column "unset"))
    (.binary .eq (.call "sum" [.column "mem"]) (.literal .null)))

theorem Compiler.testsNull_patchyLoad : ∃ plan, patchyHosts.plan .patchyLoad = .ok plan ∧
    (∀ stage ∈ plan.stages, ∀ e ∈ stage.exprs, e.IsNullSafe) ∧
    ∃ seconds a carried,
      (∃ x, patchyHosts.WrittenAs .patchyLoad seconds a carried (.column "cpu") x ∧
        plan.TestsNull x true) ∧
      (∃ x, patchyHosts.WrittenAs .patchyLoad seconds a carried (.call "max" [.column "cpu"]) x ∧
        plan.TestsNull x false) ∧
      ∃ x, patchyHosts.WrittenAs .patchyLoad seconds a carried (.call "sum" [.column "mem"]) x ∧
        plan.TestsNull x false := by
  obtain ⟨plan, ok⟩ : ∃ plan, patchyHosts.plan .patchyLoad = .ok plan :=
    isSome_toOption.mp (by decide +kernel)
  have dialect : patchyHosts.dialect = Sql.Database.postgres.dialect := rfl
  have registry : patchyHosts.registry = .builtin := rfl
  obtain ⟨safe, ⟨seconds, a, carried, _, _, -, tests⟩, -⟩ := testsNull_plan dialect registry ok
  have derived : patchyHosts.schema.column? "unset" = some (.derived .unset) := rfl
  have unset : Resolver.InlinesNull ⟨patchyHosts.schema, patchyHosts.registry, seconds⟩
      (.column "unset") := by
    rw [Resolver.InlinesNull, Resolver.inline, Resolver.inlineWithin_name rfl]
    refine (Resolver.inlineNode_derived derived List.not_mem_nil).trans ?_
    rw [Resolver.inlineWithin_eq]
    rfl
  refine ⟨plan, ok, safe, seconds, a, carried, tests _ _ ?_, tests _ _ ?_, tests _ _ ?_⟩
  · have named : "measured" ∈ (Expr.call "count" [.column "measured"]).columns := by simp
    have reaches := Resolver.Reaches.part (r := ⟨patchyHosts.schema, patchyHosts.registry, seconds⟩)
      (Expr.self_mem_nodes DerivedColumn.measured.expr)
    exact .selector (.tail _ (.head _)) (.definition named rfl reaches)
      (.right rfl Resolver.inlinesNull_literal)
  · exact .selector (.tail _ (.tail _ (.head _))) (.part (Expr.self_mem_nodes _)) (.left rfl unset)
  · have out : Expr.binary .eq (.call "sum" [.column "mem"]) (.literal .null) ∈
        (Query.patchyLoad.filter.getD (.literal .null)).outside patchyHosts.registry :=
      Expr.mem_outside_binary.mpr (.inr (.inr Expr.self_mem_walk))
    exact .filter rfl out (.right rfl FilterScope.liftsNull_literal)

end Rollup
