import Rollup.Proofs.Staging.Ready

/-! Errors that no query runs into.

Some errors could only come from a mistake of the compiler: a reference without a target, an
aggregate that is read by a name it does not have, an output that is read before it is computed.
One pass relies on what another one has done, and every pass does what the others rely on. In the
same way a placeholder is missed where names are resolved, and never by a later pass.
-/

set_option autoImplicit false

namespace Rollup

/-- Obstacles that only a mistake of the compiler puts in the way of a query. -/
def Obstacle.isInternal : Obstacle → Bool
  | .missingArgument | .aggregateWithoutField | .expressionWithoutField
  | .outputBeforeAggregation | .filterAfterLastStage | .danglingReference => true
  | _ => false

namespace CompileError

def isInternal : CompileError → Bool
  | .unsupported _ obstacle => obstacle.isInternal
  | _ => false

def isPlaceholder : CompileError → Bool
  | .unresolvedPlaceholder _ => true
  | _ => false

def ofLayout : CompileError → Bool
  | .unknownOutput _ | .shadowedColumn _ _ | .dialectCapability _ _ => true
  | .unsupported _ .keyHidesColumn | .unsupported _ .rateWithoutInterval => true
  | _ => false

theorem not_isInternal_of_ofLayout {fault : CompileError} (is : fault.ofLayout = true) :
    fault.isInternal = false := by
  unfold ofLayout at is
  split at is <;> first | rfl | cases is

theorem not_isPlaceholder_of_ofLayout {fault : CompileError} (is : fault.ofLayout = true) :
    fault.isPlaceholder = false := by
  unfold ofLayout at is
  split at is <;> first | rfl | cases is

theorem not_isInternal_of_ofPreparation {fault : CompileError} (is : fault.ofPreparation = true) :
    fault.isInternal = false := by
  cases fault with
  | unsupported expr obstacle => cases obstacle <;> first | rfl | cases is
  | _ => rfl

theorem not_isPlaceholder_of_ofNames {fault : CompileError} (is : fault.ofNames = true) :
    fault.isPlaceholder = false := by
  cases fault <;> first | rfl | cases is

end CompileError

/-- What is resolved of a query: the expressions of the selectors, and parts of the filter. -/
def Query.resolved (query : Query) : List Expr :=
  query.selectors.map (·.expr) ++ query.filter.toList.flatMap Expr.nodes

theorem Resolver.resolve_placeholder (r : Resolver) (name : String) :
    r.resolve (.placeholder name) = (r.placeholderValue name).map .literal := by
  have value : r.inline (.placeholder name) = (r.placeholderValue name).map .literal := by
    rw [inline, inlineWithin.eq_def]
    rfl
  rw [resolve, value]
  cases r.placeholderValue name <;> rfl

namespace Compiler

/-- How passes of the compiler can rely on each other. -/
structure Guarded (c : Compiler) (query : Query) : Prop where
  /-- No query is refused with an internal error. -/
  refusals (pretty : Bool) :
    FailsOnly (fun fault => fault.isInternal = false) (c.compile query pretty)
  /-- What outputs and conditions refer to is there when they are collected. -/
  collected (seconds : Option Int) (a : Analysis) :
    c.analyze query ⟨c.schema, c.registry, seconds⟩ = .ok a →
      (∀ output ∈ a.outputs, output.expr.IsWithin ⟨a.keys.length, a.calls.length, 0, 0⟩) ∧
        ∀ condition ∈ a.conditions,
          condition.expr.IsWithin ⟨a.keys.length, a.calls.length, 0, a.outputs.length⟩
  staged (seconds : Option Int) (a : Analysis) (carried : List String) :
    c.Prepares query seconds a carried →
      let r := (c.builder query seconds a carried).renderer
      (∀ output ∈ r.outputs, output.expr.IsWithin r.extent) ∧
        (∀ part ∈ r.shared, part.expr.IsWithin r.extent) ∧
          ∀ condition ∈ a.conditions, condition.expr.IsWithin r.extent
  selectors (seconds : Option Int) (keys : List GroupKey) (selector : Selector)
    (selected : Selected) : select ⟨c.schema, c.registry, seconds⟩ selector = .ok selected →
      RunFailsOnly (fun fault => fault.isPlaceholder = false)
        (liftOutput c.registry keys selected)
  filters (seconds : Option Int) (e x : Expr) :
    Resolver.resolve ⟨c.schema, c.registry, seconds⟩ e = .ok x →
      RunFailsOnly (fun _ => False) (lift c.registry FilterScope.rowColumn x)
  layouts (seconds : Option Int) (a : Analysis) : c.schema.isStored (c.timeColumn query) = true →
    bucketSeconds query = .ok seconds →
      c.analyze query ⟨c.schema, c.registry, seconds⟩ = .ok a →
        FailsOnly (fun fault => fault.isPlaceholder = false) (c.layOut query seconds a)
  /-- So a placeholder is missed where a selector or a part of the filter is resolved. -/
  unresolved (pretty : Bool) (name : String) :
    c.compile query pretty = .error (.unresolvedPlaceholder name) →
      ∃ seconds, bucketSeconds query = .ok seconds ∧ ∃ e ∈ query.resolved,
        Resolver.resolve ⟨c.schema, c.registry, seconds⟩ e = .error (.unresolvedPlaceholder name)

variable {c : Compiler} {query : Query} {seconds : Option Int} {a : Analysis}
  {carried : List String}

/-! ## Lifting -/

theorem not_placeholder_of_isComplete {registry : Registry} {e : Expr}
    (complete : e.IsComplete registry) {name : String} : .placeholder name ∉ e.nodes :=
  fun member => Bool.false_ne_true (complete _ member)

theorem failsOnly_liftSelected {P : CompileError → Prop}
    (names : ∀ fault, fault.ofNames = true → P fault) (needs : c.registry.NeedsArguments)
    {selector : Selector} {selected : Selected}
    (chosen : select ⟨c.schema, c.registry, seconds⟩ selector = .ok selected)
    (keys : List GroupKey) : RunFailsOnly P (liftOutput c.registry keys selected) :=
  failsOnly_liftOutput names c.registry keys fun _ member =>
    absurd member (not_placeholder_of_isComplete (isComplete_select needs chosen))

theorem failsOnly_liftFilter {P : CompileError → Prop} (needs : c.registry.NeedsArguments)
    {e x : Expr} (resolved : Resolver.resolve ⟨c.schema, c.registry, seconds⟩ e = .ok x) :
    RunFailsOnly P (lift c.registry FilterScope.rowColumn x) :=
  failsOnly_lift c.registry (fun _ _ => .ok _) fun _ member =>
    absurd member (not_placeholder_of_isComplete (Resolver.isComplete_resolve needs resolved))

/-! ## Analysis -/

def IsResolving (c : Compiler) (query : Query) (seconds : Option Int) (fault : CompileError) :
    Prop :=
  fault.isPlaceholder = true → ∃ e ∈ query.resolved,
    Resolver.resolve ⟨c.schema, c.registry, seconds⟩ e = .error fault

theorem isResolving_of_ofNames (fault : CompileError) (is : fault.ofNames = true) :
    c.IsResolving query seconds fault := fun placeholder => by
  rw [CompileError.not_isPlaceholder_of_ofNames is] at placeholder
  cases placeholder

theorem isResolving_resolve {e : Expr} (member : e ∈ query.resolved) :
    FailsOnly (c.IsResolving query seconds)
      (Resolver.resolve ⟨c.schema, c.registry, seconds⟩ e) :=
  fun _ failed _ => ⟨e, member, failed⟩

theorem mem_resolved_of_selector {selector : Selector} (member : selector ∈ query.selectors) :
    selector.expr ∈ query.resolved :=
  List.mem_append_left _ (List.mem_map_of_mem member)

theorem mem_resolved_of_filter {filter node : Expr} (is : query.filter = some filter)
    (member : node ∈ filter.nodes) : node ∈ query.resolved :=
  List.mem_append_right _ (List.mem_flatMap.mpr ⟨filter, by simp [is], member⟩)

/-- What is resolved has no placeholders left, so no other step of the analysis misses one. -/
theorem isResolving_analyze (needs : c.registry.NeedsArguments) :
    FailsOnly (c.IsResolving query seconds)
      (c.analyze query ⟨c.schema, c.registry, seconds⟩) := by
  refine c.failsOnly_analyze isResolving_of_ofNames query (fun selector member => ?_)
    (fun selector _ one chosen name within => ?_) fun keys outputs => ?_
  · unfold select
    split
    · exact .error (isResolving_of_ofNames _ rfl)
    · exact (isResolving_resolve (mem_resolved_of_selector member)).bind fun _ => .ok _
  · exact absurd within (not_placeholder_of_isComplete (isComplete_select needs chosen))
  · refine FilterScope.failsOnly_conditions isResolving_of_ofNames _ (fun e is node member => ?_)
      fun e is name member => ?_
    · exact RunFailsOnly.bind_of_ok (isResolving_resolve (mem_resolved_of_filter is member))
        fun x resolved => failsOnly_liftFilter needs resolved
    · -- A placeholder on its own is resolved to its value.
      intro fault failed _
      refine ⟨.placeholder name, mem_resolved_of_filter is member, ?_⟩
      rw [Resolver.resolve_placeholder, failed]
      rfl

/-! ## Stages -/

theorem means_ofLayout (needs : c.registry.NeedsArguments)
    (prepares : c.Prepares query seconds a carried) :
    (c.builder query seconds a carried).MeansFailOnly (fun fault => fault.ofLayout = true) where
  bucket := StageBuilder.failsOnly_bucketStart? _ fun _ => rfl
  aggregates _ member _ :=
    Renderer.failsOnly_aggregate
      ((complete_analyze needs prepares.analyzed).calls _ (prepares.call_mem member))
      (fun _ _ => rfl) (fun _ => Renderer.failsOnly_capability _ _ rfl)
      fun _ _ _ _ => Renderer.failsOnly_capability _ _ rfl

theorem failsOnly_build (needs : c.registry.NeedsArguments)
    (prepares : c.Prepares query seconds a carried) :
    FailsOnly (fun fault => fault.ofLayout = true)
      ((c.builder query seconds a carried).build (c.layoutOf a)) :=
  (prepares.ready_builder needs).failsOnly_build (means_ofLayout needs prepares) fun _ _ => rfl

theorem failsOnly_layOut (needs : c.registry.NeedsArguments)
    (stored : c.schema.isStored (c.timeColumn query) = true)
    (bucket : bucketSeconds query = .ok seconds)
    (analyzed : c.analyze query ⟨c.schema, c.registry, seconds⟩ = .ok a) :
    FailsOnly (fun fault => fault.ofLayout = true) (c.layOut query seconds a) := by
  rw [layOut_eq]
  refine FailsOnly.bind_of_ok ?_ fun carried carries => ?_
  · exact (c.failsOnly_carriedIn query a).imp fun _ ⟨_, _, _, _, is⟩ => is ▸ rfl
  · refine FailsOnly.bind ?_ fun _ => ?_
    · exact (failsOnly_sortKeys a.names query.orderBy).imp fun _ ⟨_, is⟩ => is ▸ rfl
    · exact (failsOnly_build needs ⟨stored, bucket, analyzed, carries⟩).bind fun _ => .ok _

/-! ## Queries -/

theorem not_isInternal_compile (needs : c.registry.NeedsArguments) (pretty : Bool) :
    FailsOnly (fun fault => fault.isInternal = false) (c.compile query pretty) := by
  intro fault refused
  cases early : fault.ofPreparation with
  | true => exact CompileError.not_isInternal_of_ofPreparation early
  | false =>
    obtain ⟨seconds, a, carried, prepares, built⟩ := (refuses_of_compile refused).prepares early
    exact CompileError.not_isInternal_of_ofLayout (failsOnly_build needs prepares _ built)

theorem resolving_of_compile (needs : c.registry.NeedsArguments) {pretty : Bool} {name : String}
    (refused : c.compile query pretty = .error (.unresolvedPlaceholder name)) :
    ∃ seconds, bucketSeconds query = .ok seconds ∧ ∃ e ∈ query.resolved,
      Resolver.resolve ⟨c.schema, c.registry, seconds⟩ e =
        .error (.unresolvedPlaceholder name) := by
  cases refuses_of_compile refused with
  | selectors _ is => cases is
  | time _ is => cases is
  | interval bucket =>
    obtain ⟨_, absurd⟩ := failsOnly_bucketSeconds query _ bucket
    cases absurd
  | analysis seconds bucket analyzed =>
    exact ⟨seconds, bucket, isResolving_analyze needs _ analyzed rfl⟩
  | carried seconds a _ _ carries =>
    obtain ⟨-, _, -, -, absurd⟩ := c.failsOnly_carriedIn query a _ carries
    cases absurd
  | order seconds a _ _ sorted =>
    obtain ⟨_, absurd⟩ := failsOnly_sortKeys _ _ _ sorted
    cases absurd
  | stages seconds a carried prepares built => cases failsOnly_build needs prepares _ built

/-- With the known functions, no query on whatever database runs into an internal error. -/
theorem guarded_builtin (schema : Schema) (dialect : Sql.Dialect) (query : Query) :
    (Compiler.mk schema dialect .builtin).Guarded query where
  refusals := not_isInternal_compile needsArguments_builtin
  collected _ _ analyzed :=
    have gathered := complete_analyze needsArguments_builtin analyzed
    ⟨gathered.outputs, gathered.conditions⟩
  staged _ _ _ prepares :=
    have ready := prepares.ready_builder needsArguments_builtin
    ⟨ready.outputs, ready.shared, ready.conditions⟩
  selectors _ keys _ _ chosen :=
    failsOnly_liftSelected (fun _ => CompileError.not_isPlaceholder_of_ofNames)
      needsArguments_builtin chosen keys
  filters _ _ _ := failsOnly_liftFilter needsArguments_builtin
  layouts _ _ stored bucket analyzed :=
    (failsOnly_layOut needsArguments_builtin stored bucket analyzed).imp fun _ =>
      CompileError.not_isPlaceholder_of_ofLayout
  unresolved _ _ := resolving_of_compile needsArguments_builtin

example : ((hosts.compile { Query.risingLoad with filter := some (.placeholder "step") }
    true).map fun _ => ()) = .error (.unresolvedPlaceholder "step") := by decide +kernel

end Compiler

end Rollup
