import Rollup.Proofs.Compiler

/-! Why queries are refused.

Every part of the compiler has errors of its own. Names are resolved and aggregates collected with
the errors of the analysis, and stages are built with those of writing expressions. Lifting an
expression has no errors of its own but for the placeholders that are left in it, and a stage has
those of its parts only. A column that is hidden is only found when all stages are built.
-/

set_option autoImplicit false

namespace Rollup

namespace CompileError

/-- Errors of names and calls: those of the analysis but for placeholders without a value. -/
def ofNames : CompileError → Bool
  | .unknownColumn _ | .unknownFunction _ | .derivedCycle _ | .nestedAggregate _ _
  | .ungroupedColumn _ _ | .mixedFilterLevels _ | .ambiguousOutputName _
  | .duplicateOutputName _ => true
  | .unsupported _ (.argumentCount _ _ _) | .unsupported _ .notADimension => true
  | _ => false

def ofAnalysis : CompileError → Bool
  | .unresolvedPlaceholder _ => true
  | fault => fault.ofNames

def ofPreparation : CompileError → Bool
  | .noSelectors | .invalidInterval _ | .unknownOutput _ | .unsupported _ .keyHidesColumn => true
  | fault => fault.ofAnalysis

def ofRendering : CompileError → Bool
  | .unresolvedPlaceholder _ | .dialectCapability _ _ => true
  | .unsupported _ .rateWithoutInterval | .unsupported _ .missingArgument
  | .unsupported _ .aggregateWithoutField | .unsupported _ .expressionWithoutField
  | .unsupported _ .outputBeforeAggregation | .unsupported _ .danglingReference => true
  | _ => false

theorem ofPreparation_of_ofAnalysis {fault : CompileError} (is : fault.ofAnalysis = true) :
    fault.ofPreparation = true := by
  cases fault with
  | unsupported expr obstacle => cases obstacle <;> first | rfl | exact is
  | _ => first | rfl | exact is

theorem ofAnalysis_of_ofNames {fault : CompileError} (is : fault.ofNames = true) :
    fault.ofAnalysis = true := by
  cases fault <;> first | rfl | exact is

end CompileError

/-! ## Analysis -/

abbrev Names {α : Type} (x : Except CompileError α) : Prop :=
  FailsOnly (fun fault => fault.ofNames = true) x

abbrev Analyzes {α : Type} (x : Except CompileError α) : Prop :=
  FailsOnly (fun fault => fault.ofAnalysis = true) x

namespace Resolver
variable (r : Resolver)

theorem analyzes_placeholderValue (name : String) : Analyzes (r.placeholderValue name) := by
  unfold placeholderValue
  split
  · exact .error rfl
  · split
    · exact .ok _
    · exact .error rfl

theorem analyzes_inlineWithin (depth : Nat) (stack : List String) (e : Expr) :
    Analyzes (r.inlineWithin depth stack e) := by
  induction depth using Nat.strongRecOn generalizing stack e with
  | _ depth ih =>
    rw [inlineWithin.eq_def]
    refine Expr.failsOnly_transformM (fun node _ _ => ?_) fun node other => ?_
    · split
      · exact (r.analyzes_placeholderValue _).map _
      · split
        · exact .error rfl
        · split
          · exact .error rfl
          · split
            · exact .error rfl
            · exact ih _ (Nat.lt_succ_self _) _ _
        · exact .ok _
      · exact .ok _
    · cases node <;> first | exact .ok _ | cases other

theorem names_checkCalls (enclosing : Option String) (e : Expr) :
    Names (r.checkCalls enclosing e) :=
  failsOnly_checkCalls (fun _ _ _ => rfl) (fun _ _ _ _ => rfl) fun _ _ => rfl

theorem analyzes_resolve (e : Expr) : Analyzes (r.resolve e) :=
  (r.analyzes_inlineWithin _ _ _).bind fun x =>
    ((r.names_checkCalls none x).imp fun _ => CompileError.ofAnalysis_of_ofNames).bind fun _ =>
      .ok x

end Resolver

theorem analyzes_select (resolver : Resolver) (selector : Selector) :
    Analyzes (Compiler.select resolver selector) := by
  unfold Compiler.select
  split
  · exact .error rfl
  · exact (resolver.analyzes_resolve _).bind fun _ => .ok _

theorem names_addKey (schema : Schema) (keys : List GroupKey) (name : String) :
    Names (addKey schema keys name) := by
  unfold addKey
  split
  · exact .ok _
  · exact .error rfl
  · exact .error rfl

theorem names_groupKeys (schema : Schema) (groupBy : List String) (selected : List Selected) :
    Names (groupKeys schema groupBy selected) := by
  refine FailsOnly.bind ?_ fun _ => .ok _
  generalize ([] : List GroupKey) = keys
  induction groupBy generalizing keys with
  | nil => exact .ok _
  | cons name rest ih => exact (names_addKey schema keys name).bind ih

theorem names_keyReference (keys : List GroupKey) (e : Expr) (column : String) :
    Names (keyReference keys e column) := by
  unfold keyReference
  split
  · exact .ok _
  · exact .error rfl

theorem names_outputNames (keys : List GroupKey) (outputs : List Output) (bucketed : Bool) :
    Names (outputNames keys outputs bucketed) := by
  unfold outputNames
  generalize (keys.map (·.name) ++ (outputs.filter (!·.isKey)).map (·.name)) = names
  generalize (if bucketed then [bucketName] else []) = seen
  induction names generalizing seen with
  | nil => exact .ok _
  | cons name rest ih =>
    rw [distinctNames]
    split
    · exact .error rfl
    · exact ih _

/-! ## Lifting -/

-- Lifting is looked at for any property of errors that those of names and calls have. Which errors
-- there are besides depends on the placeholders that are left and on what is resolved on the way.

theorem mem_nodes_of_conjuncts {conjunct e : Expr} (member : conjunct ∈ e.conjuncts) :
    conjunct ∈ e.nodes := by
  fun_induction Expr.conjuncts e with
  | case1 left right ihl ihr =>
    exact Expr.mem_nodes_binary.mpr (.inr ((List.mem_append.mp member).imp ihl ihr))
  | case2 e =>
    obtain rfl := List.mem_singleton.mp member
    exact Expr.self_mem_nodes _

section
variable {P : CompileError → Prop} (names : ∀ fault, fault.ofNames = true → P fault)
include names

theorem failsOnly_liftOutput (registry : Registry) (keys : List GroupKey) {selected : Selected}
    (placeholder : ∀ name, .placeholder name ∈ selected.expr.nodes →
      P (.unresolvedPlaceholder name)) : RunFailsOnly P (liftOutput registry keys selected) :=
  (failsOnly_lift registry (fun name _ => (names_keyReference keys selected.expr name).imp names)
    placeholder).bind fun _ => .pure _

namespace FilterScope
variable (scope : FilterScope)

theorem failsOnly_liftName {name : String}
    (resolved : RunFailsOnly P (scope.liftResolved (.column name))) :
    RunFailsOnly P (scope.liftName name) := by
  unfold liftName
  split
  · exact .pure _
  · split
    · split
      · exact .pure _
      · exact .throw (names _ rfl)
    · split
      · exact resolved
      · exact .throw (names _ rfl)

theorem failsOnly_liftExpr {e : Expr}
    (resolved : ∀ node ∈ e.nodes, RunFailsOnly P (scope.liftResolved node))
    (placeholder : ∀ name, .placeholder name ∈ e.nodes →
      FailsOnly P (scope.resolver.placeholderValue name)) : RunFailsOnly P (scope.liftExpr e) := by
  induction e with
  | literal value => exact .pure _
  | column name => exact scope.failsOnly_liftName names (resolved _ (by simp))
  | placeholder name => exact (RunFailsOnly.lift (placeholder name (by simp))).bind fun _ => .pure _
  | binary op left right ihl ihr =>
    have l := ihl (fun node member => resolved node (by simp [member]))
      fun name member => placeholder name (by simp [member])
    have r := ihr (fun node member => resolved node (by simp [member]))
      fun name member => placeholder name (by simp [member])
    exact l.bind fun _ => r.bind fun _ => .pure _
  | unary op operand ih =>
    exact (ih (fun node member => resolved node (by simp [member]))
      fun name member => placeholder name (by simp [member])).bind fun _ => .pure _
  | inList operand items negated ih ihs =>
    have each := RunFailsOnly.mapM fun item listed => ihs item listed
      (fun node member =>
        resolved node (Expr.mem_nodes_inList.mpr (.inr (.inr ⟨item, listed, member⟩))))
      fun name member =>
        placeholder name (Expr.mem_nodes_inList.mpr (.inr (.inr ⟨item, listed, member⟩)))
    rw [liftExpr, liftEach_eq]
    exact (ih (fun node member => resolved node (by simp [member]))
      fun name member => placeholder name (by simp [member])).bind fun _ =>
        each.bind fun _ => .pure _
  | call name args ihs =>
    have each := RunFailsOnly.mapM fun arg listed => ihs arg listed
      (fun node member => resolved node (Expr.mem_nodes_call.mpr (.inr ⟨arg, listed, member⟩)))
      fun name member => placeholder name (Expr.mem_nodes_call.mpr (.inr ⟨arg, listed, member⟩))
    rw [liftExpr, liftEach_eq]
    split
    · exact .throw (names _ rfl)
    · split
      · exact resolved _ (Expr.mem_nodes_call.mpr (.inl rfl))
      · split
        · exact .throw (names _ rfl)
        · exact each.bind fun _ => .pure _

omit names in
theorem names_substituteM (text : String) (e : GroupExpr) :
    Names (e.substituteM (scope.groupReference text)) := by
  induction e with
  | reference target =>
    rw [GroupExpr.substituteM]
    unfold groupReference
    split
    · split
      · exact .ok _
      · exact .error rfl
    · exact .ok _
  | literal value => exact .ok _
  | binary op left right ihl ihr => exact ihl.bind fun l => ihr.bind fun _ => .ok _
  | unary op operand ih => exact ih.bind fun _ => .ok _
  | inList operand items negated ih ihs =>
    rw [GroupExpr.substituteM, GroupExpr.substituteEachM_eq]
    exact ih.bind fun _ => (FailsOnly.mapM ihs).bind fun _ => .ok _
  | call name args ihs =>
    rw [GroupExpr.substituteM, GroupExpr.substituteEachM_eq]
    exact (FailsOnly.mapM ihs).bind fun _ => .ok _

theorem failsOnly_liftCondition {conjunct : Expr}
    (lifted : RunFailsOnly P (scope.liftExpr conjunct)) :
    RunFailsOnly P (scope.liftCondition conjunct) := by
  refine lifted.bind fun lifted => ?_
  dsimp only
  split
  · exact .pure _
  · exact (RunFailsOnly.lift ((scope.names_substituteM _ lifted).imp names)).bind fun _ => .pure _

theorem failsOnly_conditions {filter : Option Expr}
    (resolved : ∀ e, filter = some e → ∀ node ∈ e.nodes,
      RunFailsOnly P (scope.liftResolved node))
    (placeholder : ∀ e, filter = some e → ∀ name, .placeholder name ∈ e.nodes →
      FailsOnly P (scope.resolver.placeholderValue name)) :
    RunFailsOnly P (scope.conditions filter) := by
  cases filter with
  | none => exact .pure _
  | some e =>
    refine RunFailsOnly.mapM fun conjunct member => scope.failsOnly_liftCondition names ?_
    have within := Expr.nodes_subset (mem_nodes_of_conjuncts member)
    exact scope.failsOnly_liftExpr names (fun node listed => resolved e rfl node (within listed))
      fun name listed => placeholder e rfl name (within listed)

end FilterScope

theorem Compiler.failsOnly_analyze (c : Compiler) (query : Query) {resolver : Resolver}
    (selectors : ∀ selector ∈ query.selectors, FailsOnly P (select resolver selector))
    (selected : ∀ selector ∈ query.selectors, ∀ one, select resolver selector = .ok one →
      ∀ name, .placeholder name ∈ one.expr.nodes → P (.unresolvedPlaceholder name))
    (filter : ∀ keys outputs, RunFailsOnly P
      (FilterScope.conditions ⟨resolver, keys, outputs⟩ query.filter)) :
    FailsOnly P (c.analyze query resolver) := by
  refine (FailsOnly.mapM selectors).bind_of_ok fun ones selects => ?_
  refine ((names_groupKeys c.schema query.groupBy ones).imp names).bind fun keys => ?_
  have outputs := RunFailsOnly.mapM fun one (member : one ∈ ones) => by
    obtain ⟨selector, listed, chosen⟩ := related_of_mem_right (mapM_eq_ok.mp selects) member
    exact failsOnly_liftOutput names c.registry keys (selected selector listed one chosen)
  refine (outputs []).bind fun (outputs, calls) => ?_
  refine ((names_outputNames keys outputs (isBucketed query)).imp names).bind fun _ => ?_
  exact (filter keys outputs calls).bind fun _ => .ok _

end

/-- Resolving fails with errors of the analysis, and so does all of it. -/
theorem Compiler.analyzes_analyze (c : Compiler) (query : Query) (resolver : Resolver) :
    Analyzes (c.analyze query resolver) := by
  have names : ∀ fault, CompileError.ofNames fault = true → fault.ofAnalysis = true :=
    fun _ => CompileError.ofAnalysis_of_ofNames
  refine c.failsOnly_analyze names query (fun s _ => analyzes_select resolver s)
    (fun _ _ _ _ _ _ => rfl) fun keys outputs => ?_
  refine FilterScope.failsOnly_conditions names _ (fun e _ node _ => ?_)
    fun e _ name _ => resolver.analyzes_placeholderValue name
  exact (RunFailsOnly.lift (resolver.analyzes_resolve node)).bind fun _ =>
    failsOnly_lift _ (fun _ _ => .ok _) fun _ _ => rfl

/-! ## Rendering -/

abbrev Writes {α : Type} (x : Except CompileError α) : Prop :=
  FailsOnly (fun fault => fault.ofRendering = true) x

namespace Renderer

theorem failsOnly_rowExpr {P : CompileError → Prop} {e : Expr}
    (placeholder : ∀ name, .placeholder name ∈ e.nodes → P (.unresolvedPlaceholder name)) :
    FailsOnly P (rowExpr e) := by
  induction e with
  | literal value => exact .ok _
  | column name => exact .ok _
  | placeholder name => exact .error (placeholder name (by simp))
  | binary op left right ihl ihr =>
    exact (ihl fun name member => placeholder name (by simp [member])).bind fun l =>
      (ihr fun name member => placeholder name (by simp [member])).bind fun _ => .ok _
  | unary op operand ih =>
    exact (ih fun name member => placeholder name (by simp [member])).bind fun _ => .ok _
  | inList operand items negated ih ihs =>
    rw [rowExpr, rowExprs_eq]
    exact (ih fun name member => placeholder name (by simp [member])).bind fun _ =>
      (FailsOnly.mapM fun item listed => ihs item listed fun name member =>
        placeholder name (Expr.mem_nodes_inList.mpr (.inr (.inr ⟨item, listed, member⟩)))).bind
          fun _ => .ok _
  | call name args ihs =>
    rw [rowExpr, rowExprs_eq]
    exact (FailsOnly.mapM fun arg listed => ihs arg listed fun name member =>
      placeholder name (Expr.mem_nodes_call.mpr (.inr ⟨arg, listed, member⟩))).bind fun _ => .ok _

theorem failsOnly_groupExpr {P : CompileError → Prop}
    {reference : Reference → Except CompileError Sql.Expr} {e : GroupExpr}
    (each : ∀ target ∈ e.references, FailsOnly P (reference target)) :
    FailsOnly P (groupExpr reference e) := by
  induction e with
  | reference target => exact each target (by simp)
  | literal value => exact .ok _
  | binary op left right ihl ihr =>
    exact (ihl fun target member => each target (by simp [member])).bind fun l =>
      (ihr fun target member => each target (by simp [member])).bind fun _ => .ok _
  | unary op operand ih =>
    exact (ih fun target member => each target (by simpa using member)).bind fun _ => .ok _
  | inList operand items negated ih ihs =>
    rw [groupExpr, groupExprs_eq]
    exact (ih fun target member => each target (by simp [member])).bind fun _ =>
      (FailsOnly.mapM fun item listed => ihs item listed fun target member =>
        each target (by simp; exact .inr ⟨item, listed, member⟩)).bind fun _ => .ok _
  | call name args ihs =>
    rw [groupExpr, groupExprs_eq]
    exact (FailsOnly.mapM fun arg listed => ihs arg listed fun target member =>
      each target (by simp; exact ⟨arg, listed, member⟩)).bind fun _ => .ok _

theorem writes_target {α : Type} (items : List α) (index : Nat) : Writes (target items index) := by
  unfold target
  split
  · exact .ok _
  · exact .error rfl

theorem writes_slotName (slot : AggregateSlot) : Writes (slotName slot) := by
  unfold slotName
  split
  · exact .ok _
  · exact .error rfl

theorem writes_sharedName (index : Nat) (part : SharedExpr) : Writes (sharedName index part) := by
  unfold sharedName
  split
  · exact .ok _
  · exact .error rfl

variable (r : Renderer)

theorem failsOnly_capability {P : CompileError → Prop} {call : AggregateCall}
    (e : Option Sql.Expr) (unable : P (.dialectCapability r.dialect.name call.render)) :
    FailsOnly P (r.capability call e) := by
  cases e with
  | some e => exact .ok e
  | none => exact .error unable

theorem writes_aggregate (call : AggregateCall) : Writes (r.aggregate call) := by
  unfold aggregate
  split
  · refine (failsOnly_rowExpr fun _ _ => rfl).bind fun value => ?_
    unfold aggregateOf
    split <;> first | exact .ok _ | exact r.failsOnly_capability _ rfl | skip
    split
    · exact .ok _
    · exact .error rfl
  · split
    · exact .ok _
    · exact .error rfl

theorem writes_windowCall (call : AggregateCall) (partitionBy : List Sql.Expr) :
    Writes (r.windowCall call partitionBy) := by
  unfold windowCall
  split
  · exact (failsOnly_rowExpr fun _ _ => rfl).bind fun _ => .ok _
  · exact .error rfl

theorem writes_plainReference (scope : Scope) (target : Reference) :
    Writes (r.plainReference scope target) := by
  cases target with
  | column name => exact .ok _
  | key index => exact (writes_target _ _).map _
  | aggregate index =>
    refine (writes_target _ _).bind fun slot => ?_
    unfold slotExpr
    split
    · exact (writes_slotName slot).map _
    · exact r.writes_aggregate _
  | shared index => exact .error rfl
  | output index => exact .error rfl

theorem writes_innerReference (scope : Scope) (target : Reference) :
    Writes (r.innerReference scope target) := by
  unfold innerReference
  split
  · refine (writes_target _ _).bind fun part => ?_
    split
    · exact (writes_sharedName _ part).map _
    · exact failsOnly_groupExpr fun target _ => r.writes_plainReference scope target
  · exact r.writes_plainReference scope _

theorem writes_render (scope : Scope) (e : GroupExpr) : Writes (r.render scope e) := by
  refine failsOnly_groupExpr fun target _ => ?_
  unfold reference
  split
  · refine (writes_target _ _).bind fun output => ?_
    split
    · exact .error rfl
    · split
      · exact .ok _
      · exact failsOnly_groupExpr fun target _ => r.writes_innerReference scope target
  · exact r.writes_innerReference scope _

end Renderer

namespace StageBuilder

/-- The parts of the stages of a layout, where each of them fails with certain errors only. -/
structure PartsFailOnly (P : CompileError → Prop) (b : StageBuilder) (layout : Layout) : Prop where
  bucket : FailsOnly P b.bucketStart?
  windows : ∀ slot ∈ b.windowSlots, FailsOnly P (Renderer.slotName slot) ∧
    ∀ partitionBy, FailsOnly P (b.renderer.windowCall slot.call partitionBy)
  rows : FailsOnly P (b.conditionsAt .row .table)
  groups : ∀ scope, scope ≠ .groups → FailsOnly P (b.conditionsAt .group scope)
  outputs : ∀ scope, (scope = .groups → layout.hasLastStage = true) →
    FailsOnly P (b.outputFields scope)
  aggregates : layout.hasLastStage = true → FailsOnly P b.aggregateFields
  shared : layout.hasLastStage = true → ∀ scope, scope ≠ .groups →
    FailsOnly P (b.sharedFields scope)
  results : layout.hasLastStage = true → FailsOnly P (b.conditionsAt .output .groups)

namespace PartsFailOnly
variable {P : CompileError → Prop} {b : StageBuilder} {layout : Layout}
  (parts : b.PartsFailOnly P layout)
include parts

theorem tableFields : FailsOnly P b.tableFields := parts.bucket.bind fun _ => .ok _

theorem rowFilter : FailsOnly P b.rowFilter := parts.rows.bind fun _ => .ok _

theorem groupFilter (scope : Scope) (early : scope ≠ .groups) :
    FailsOnly P (b.groupFilter scope) :=
  (parts.groups scope early).bind fun _ => .ok _

theorem windowStage : FailsOnly P b.windowStage := by
  have results : ∀ partitionBy,
      FailsOnly P (b.windowSlots.mapM (b.windowField partitionBy)) := fun partitionBy =>
    FailsOnly.mapM fun slot member => (parts.windows slot member).1.bind fun name =>
      ((parts.windows slot member).2 partitionBy).bind fun _ => .ok _
  exact parts.bucket.bind fun bucket => parts.tableFields.bind fun fields =>
    (results _).bind fun results => parts.rowFilter.bind fun _ => .ok _

theorem windowNames : FailsOnly P (b.windowSlots.mapM Renderer.slotName) :=
  FailsOnly.mapM fun slot member => (parts.windows slot member).1

theorem lastStage (last : layout.hasLastStage = true) : FailsOnly P b.lastStage :=
  (parts.outputs .groups fun _ => last).bind fun _ =>
    FailsOnly.bind ((parts.results last).bind fun _ => .ok _) fun _ => .ok _

theorem stages : FailsOnly P (b.stages layout) := by
  cases layout with
  | flat =>
    exact FailsOnly.bind (parts.tableFields.bind fun fields =>
      (parts.outputs .table nofun).bind fun outputs => parts.rowFilter.bind fun filter =>
        (parts.groupFilter .table nofun).bind fun _ => .ok _) fun _ => .ok _
  | computed =>
    exact FailsOnly.bind (parts.tableFields.bind fun fields =>
      (parts.aggregates rfl).bind fun aggregates =>
        (parts.shared rfl .table nofun).bind fun shared => parts.rowFilter.bind fun filter =>
          (parts.groupFilter .table nofun).bind fun _ => .ok _)
      fun stage => (parts.lastStage rfl).bind fun _ => .ok _
  | windowed =>
    refine parts.windowStage.bind fun first => FailsOnly.bind ?_ fun _ => .ok _
    exact parts.windowNames.bind fun names => (parts.outputs .window nofun).bind fun _ =>
      (parts.groupFilter .window nofun).bind fun _ => .ok _
  | windowedComputed =>
    refine parts.windowStage.bind fun first => FailsOnly.bind ?_ fun stage =>
      (parts.lastStage rfl).bind fun _ => .ok _
    exact parts.windowNames.bind fun names => (parts.aggregates rfl).bind fun _ =>
      (parts.shared rfl .window nofun).bind fun _ => FailsOnly.bind (.ok _) fun _ =>
        (parts.groupFilter .window nofun).bind fun _ => .ok _

end PartsFailOnly

variable (b : StageBuilder)

theorem failsOnly_bucketStart? {P : CompileError → Prop}
    (unable : ∀ construct, P (.dialectCapability b.renderer.dialect.name construct)) :
    FailsOnly P b.bucketStart? := by
  unfold bucketStart?
  split
  · split
    · exact .ok _
    · exact .error (unable _)
  · exact .ok _

theorem writes_stages (layout : Layout) : Writes (b.stages layout) := by
  have conditions : ∀ level scope, Writes (b.conditionsAt level scope) := fun level scope =>
    FailsOnly.mapM fun condition _ => b.renderer.writes_render scope condition.expr
  exact PartsFailOnly.stages {
    bucket := b.failsOnly_bucketStart? fun _ => rfl
    windows := fun slot _ =>
      ⟨Renderer.writes_slotName slot, b.renderer.writes_windowCall slot.call⟩
    rows := conditions _ _
    groups := fun scope _ => conditions _ scope
    outputs := fun scope _ => FailsOnly.mapM fun output _ =>
      (b.renderer.writes_render scope output.expr).bind fun _ => .ok _
    aggregates := fun _ => FailsOnly.mapM fun (_, call) _ =>
      (b.renderer.writes_aggregate call).bind fun _ => .ok _
    shared := fun _ scope _ => FailsOnly.mapM fun (part, index) _ =>
      (Renderer.writes_sharedName index part).bind fun _ =>
        (b.renderer.writes_render scope part.expr).bind fun _ => .ok _
    results := fun _ => conditions _ _ }

theorem shadowing_of_check {stages : List Stage} {fault : CompileError}
    (failed : b.checkVisibility stages = .error fault) :
    b.renderer.dialect.aliasInWhere = true ∧ ∃ stage ∈ stages, ∃ field,
      shadowing? stage = some field ∧
        fault = .shadowedColumn field.name b.renderer.dialect.name := by
  unfold checkVisibility at failed
  split at failed
  · cases failed
  · rename_i visible
    split at failed
    · rename_i field found
      obtain ⟨stage, listed, hides⟩ := List.exists_of_findSome?_eq_some found
      exact ⟨by simpa using visible, stage, listed, field, hides, (Except.error.inj failed).symm⟩
    · cases failed

end StageBuilder

/-! ## Queries -/

namespace Compiler

/-- The step at which a query is refused. -/
inductive Refuses (c : Compiler) (query : Query) (fault : CompileError) : Prop where
  | selectors (empty : query.selectors.isEmpty = true) (is : fault = .noSelectors)
  | time (unstored : c.schema.isStored (c.timeColumn query) = false)
      (is : fault = .unknownColumn (c.timeColumn query))
  | interval (bucket : bucketSeconds query = .error fault)
  | analysis (seconds : Option Int) (bucket : bucketSeconds query = .ok seconds)
      (analyzed : c.analyze query ⟨c.schema, c.registry, seconds⟩ = .error fault)
  | carried (seconds : Option Int) (a : Analysis) (bucket : bucketSeconds query = .ok seconds)
      (analyzed : c.analyze query ⟨c.schema, c.registry, seconds⟩ = .ok a)
      (carries : c.carriedIn query a = .error fault)
  | order (seconds : Option Int) (a : Analysis) (bucket : bucketSeconds query = .ok seconds)
      (analyzed : c.analyze query ⟨c.schema, c.registry, seconds⟩ = .ok a)
      (sorted : query.orderBy.mapM (sortKey a.names) = .error fault)
  | stages (seconds : Option Int) (a : Analysis) (carried : List String)
      (prepares : c.Prepares query seconds a carried)
      (built : (c.builder query seconds a carried).build (c.layoutOf a) = .error fault)

variable {c : Compiler} {query : Query} {fault : CompileError}

theorem refuses_of_planWithColumns (refused : c.planWithColumns query = .error fault) :
    c.Refuses query fault := by
  unfold planWithColumns at refused
  split at refused
  · rename_i empty
    exact .selectors empty (Except.error.inj refused).symm
  dsimp only at refused
  split at refused
  · rename_i unstored
    exact .time (by simpa using unstored) (Except.error.inj refused).symm
  rename_i stored
  rcases bind_eq_error.mp refused with bucket | ⟨seconds, bucket, refused⟩
  · exact .interval bucket
  rcases bind_eq_error.mp refused with analyzed | ⟨a, analyzed, refused⟩
  · exact .analysis seconds bucket analyzed
  rw [layOut_eq] at refused
  rcases bind_eq_error.mp refused with carries | ⟨carried, carries, refused⟩
  · exact .carried seconds a bucket analyzed carries
  rcases bind_eq_error.mp refused with sorted | ⟨orderBy, -, refused⟩
  · exact .order seconds a bucket analyzed sorted
  rcases bind_eq_error.mp refused with built | ⟨_, -, absurd⟩
  · exact .stages seconds a carried ⟨by simpa using stored, bucket, analyzed, carries⟩ built
  · cases absurd

theorem refuses_of_plan (refused : c.plan query = .error fault) : c.Refuses query fault := by
  rcases bind_eq_error.mp refused with refused | ⟨_, -, absurd⟩
  · exact refuses_of_planWithColumns refused
  · cases absurd

theorem refuses_of_compile {pretty : Bool} (refused : c.compile query pretty = .error fault) :
    c.Refuses query fault := by
  rcases bind_eq_error.mp refused with refused | ⟨_, -, absurd⟩
  · exact refuses_of_planWithColumns refused
  · cases absurd

theorem failsOnly_bucketSeconds (query : Query) :
    FailsOnly (fun fault => ∃ reason, fault = .invalidInterval reason) (bucketSeconds query) := by
  unfold bucketSeconds
  split
  · exact .ok _
  · split
    · exact .ok _
    · exact .error ⟨_, rfl⟩

/-- A key hides a column that is still to be read only by another name than that of its own. -/
theorem failsOnly_carriedIn (c : Compiler) (query : Query) (a : Analysis) :
    FailsOnly (fun fault => (c.layoutOf a).isWindowed = true ∧
      ∃ key ∈ a.keys, key.name ≠ key.column ∧ fault = .unsupported key.name .keyHidesColumn)
      (c.carriedIn query a) := by
  unfold carriedIn
  split
  · rename_i windowed
    unfold carriedColumns
    dsimp only
    split
    · rename_i key found
      have member := List.mem_of_find?_eq_some found
      refine .error ⟨windowed, key, member, fun same => ?_, rfl⟩
      have carried := List.find?_some found
      have outside := (List.mem_filter.mp (List.contains_iff_mem.mp carried)).2
      have own : GroupKey.mk key.name key.name = key := congrArg (GroupKey.mk · key.name) same
      rw [own, List.contains_iff_mem.mpr member] at outside
      cases outside
    · exact .ok _
  · exact .ok _

theorem failsOnly_sortKeys (names : List String) (orderBy : List OrderBy) :
    FailsOnly (fun fault => ∃ name, fault = .unknownOutput name)
      (orderBy.mapM (sortKey names)) := by
  refine FailsOnly.mapM fun order _ => ?_
  unfold sortKey
  split
  · exact .ok _
  · exact .error ⟨_, rfl⟩

theorem Refuses.prepares (refuses : c.Refuses query fault) (own : fault.ofPreparation = false) :
    ∃ seconds a carried, c.Prepares query seconds a carried ∧
      (c.builder query seconds a carried).build (c.layoutOf a) = .error fault := by
  have early : fault.ofPreparation ≠ true := Bool.eq_false_iff.mp own
  cases refuses with
  | selectors _ is => exact absurd (is ▸ rfl) early
  | time _ is => exact absurd (is ▸ rfl) early
  | interval bucket =>
    obtain ⟨_, rfl⟩ := failsOnly_bucketSeconds query _ bucket
    exact absurd rfl early
  | analysis seconds _ failed =>
    exact absurd (CompileError.ofPreparation_of_ofAnalysis (c.analyzes_analyze query _ _ failed))
      early
  | carried seconds a _ _ carries =>
    obtain ⟨-, _, -, -, rfl⟩ := c.failsOnly_carriedIn query a _ carries
    exact absurd rfl early
  | order seconds a _ _ sorted =>
    obtain ⟨_, rfl⟩ := failsOnly_sortKeys _ _ _ sorted
    exact absurd rfl early
  | stages seconds a carried prepares built => exact ⟨seconds, a, carried, prepares, built⟩

variable {name dialect : String}

theorem built_of_shadowedColumn
    (refused : c.plan query = .error (.shadowedColumn name dialect)) :
    ∃ seconds a carried stages, c.Prepares query seconds a carried ∧
      (c.builder query seconds a carried).Built (c.layoutOf a) stages ∧
      c.dialect.aliasInWhere = true ∧ dialect = c.dialect.name ∧
      ∃ stage ∈ stages, ∃ field, StageBuilder.shadowing? stage = some field ∧
        field.name = name := by
  obtain ⟨seconds, a, carried, prepares, refused⟩ := (refuses_of_plan refused).prepares rfl
  rcases bind_eq_error.mp refused with tests | ⟨_, -, refused⟩
  · unfold StageBuilder.checkConditions at tests
    split at tests
    · cases tests
    · split at tests <;> cases tests
  rcases bind_eq_error.mp refused with writes | ⟨stages, built, refused⟩
  · cases StageBuilder.writes_stages _ _ _ writes
  rcases bind_eq_error.mp refused with check | ⟨_, -, absurd⟩
  · obtain ⟨visible, stage, listed, field, hides, same⟩ := StageBuilder.shadowing_of_check _ check
    obtain ⟨rfl, rfl⟩ := CompileError.shadowedColumn.inj same
    exact ⟨seconds, a, carried, stages, prepares, StageBuilder.built_stages built, visible, rfl,
      stage, listed, field, hides, rfl⟩
  · cases absurd

end Compiler

end Rollup
