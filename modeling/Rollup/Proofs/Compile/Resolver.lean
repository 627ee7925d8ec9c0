import Rollup.Compile.Resolver
import Rollup.Proofs.Expr.Rebuilding

/-! Resolved expressions name stored columns only.

Rebuilding an expression replaces its names, so the names that are left are those of the
replacements. A derived column is replaced by its definition, which is resolved with one derived
column fewer left, and a placeholder by its value. The check of the calls fails at calls only.
Metrics that are put into aggregates of their own change nothing else about an expression.
-/

set_option autoImplicit false

namespace Rollup

def Expr.isName : Expr → Bool
  | .column _ | .placeholder _ => true
  | _ => false

namespace Expr
variable {ε : Type} {f : Expr → Except ε Expr} {e x : Expr}

/-! ## Operands

A name has no operands, and what is no name stays what it is on other operands. So an expression in
which names are replaced is rebuilt like its operands, or it is a name itself.
-/

theorem isName_withOperands (e : Expr) (es : List Expr) :
    (e.withOperands es).isName = e.isName := by
  unfold withOperands
  split <;> rfl

theorem withOperands_of_isName (is : e.isName = true) (es : List Expr) :
    e.withOperands es = e := by
  cases e <;> first | rfl | cases is

theorem transformM_of_isName (is : e.isName = true) : e.transformM f = f e := by
  cases e <;> first | rfl | cases is

theorem transformM_eq_ok (other : ∀ e : Expr, e.isName = false → f e = .ok e)
    (is : e.isName = false) :
    e.transformM f = .ok x ↔
      ∃ es, List.Forall₂ (fun part y => part.transformM f = .ok y) e.children es ∧
        e.withOperands es = x := by
  have kept : ∀ es, f (e.withOperands es) = .ok (e.withOperands es) :=
    fun es => other _ ((isName_withOperands e es).trans is)
  rw [transformM_eq, bind_eq_ok]
  simp only [mapM_eq_ok, kept, Except.ok.injEq]

/-! ## Names and calls -/

/-- Where a node of a rebuilt expression comes from: it is in what a name was replaced by, or it is
no name and calls what a node called before. -/
def Origin (f : Expr → Except ε Expr) (e node : Expr) : Prop :=
  (∃ name ∈ e.nodes, name.isName = true ∧ ∃ y, f name = .ok y ∧ node ∈ y.nodes) ∨
    node.isName = false ∧ ∃ origin ∈ e.nodes, origin.callName? = node.callName?

theorem Origin.widen {part node : Expr} (within : part ∈ e.nodes) :
    Origin f part node → Origin f e node :=
  Or.imp (fun ⟨name, named, replaced⟩ => ⟨name, nodes_subset within named, replaced⟩)
    fun ⟨other, origin, member, same⟩ => ⟨other, origin, nodes_subset within member, same⟩

theorem origin_transformM (other : ∀ e : Expr, e.isName = false → f e = .ok e)
    (ok : e.transformM f = .ok x) {node : Expr} (member : node ∈ x.nodes) : Origin f e node := by
  induction e using byChildren generalizing x with
  | step e ih =>
    cases is : e.isName with
    | true =>
      rw [transformM_of_isName is] at ok
      exact .inl ⟨e, self_mem_nodes e, is, x, ok, member⟩
    | false =>
      obtain ⟨es, oks, rfl⟩ := (transformM_eq_ok other is).mp ok
      rcases mem_walk.mp member with rfl | ⟨-, y, listed, member⟩
      · exact .inr ⟨(isName_withOperands e es).trans is, e, self_mem_nodes e,
          (callName?_withOperands e es).symm⟩
      · rw [children_withOperands oks.length_eq.symm] at listed
        obtain ⟨part, child, ok⟩ := related_of_mem_right oks listed
        exact (ih part child ok member).widen (child_mem_nodes (self_mem_nodes e) child)

theorem replaced_of_transformM (ok : e.transformM f = .ok x) {name : Expr} (member : name ∈ e.nodes)
    (is : name.isName = true) : ∃ y, f name = .ok y := by
  induction e using byChildren generalizing x with
  | step e ih =>
    rw [transformM_eq, bind_eq_ok] at ok
    obtain ⟨es, oks, ok⟩ := ok
    rcases mem_walk.mp member with rfl | ⟨-, part, child, member⟩
    · rw [withOperands_of_isName is] at ok
      exact ⟨x, ok⟩
    · obtain ⟨y, -, ok⟩ := related_of_mem_left (mapM_eq_ok.mp oks) child
      exact ih part child ok member

theorem failsOnly_transformM {P : ε → Prop}
    (names : ∀ node ∈ e.nodes, node.isName = true → FailsOnly P (f node))
    (other : ∀ e : Expr, e.isName = false → FailsOnly P (f e)) : FailsOnly P (e.transformM f) := by
  induction e using byChildren with
  | step e ih =>
    rw [transformM_eq]
    refine (FailsOnly.mapM fun part child => ih part child fun node member => ?_).bind fun es => ?_
    · exact names node (nodes_subset_of_child child member)
    · cases is : e.isName with
      | true =>
        rw [withOperands_of_isName is]
        exact names e (self_mem_nodes e) is
      | false => exact other _ ((isName_withOperands e es).trans is)

end Expr

namespace Resolver

theorem isStored_of_column? {schema : Schema} {name : String} {column : Column}
    (found : schema.column? name = some column) (stored : column.isStored = true) :
    schema.isStored name = true := by
  rw [Schema.isStored, found]
  exact stored

def inlineNode (r : Resolver) : Nat → List String → Expr → Except CompileError Expr
  | _, _, .placeholder name => (r.placeholderValue name).map .literal
  | depth, stack, .column name =>
    match r.schema.column? name with
    | none => .error (.unknownColumn name)
    | some (.derived column) =>
      if stack.contains name then .error (.derivedCycle (cycleFrom stack name))
      else match depth with
        | 0 => .error (.derivedCycle (stack ++ [name]))
        | depth + 1 => r.inlineWithin depth (stack ++ [name]) column.expr
    | some _ => .ok (.column name)
  | _, _, other => .ok other

theorem inlineWithin_eq {r : Resolver} {depth : Nat} {stack : List String} {e : Expr} :
    r.inlineWithin depth stack e = e.transformM (r.inlineNode depth stack) := by
  rw [inlineWithin.eq_def]
  refine congrArg (e.transformM ·) (funext fun node => ?_)
  cases node <;> rfl

theorem inlineNode_other {r : Resolver} {depth : Nat} {stack : List String} {e : Expr}
    (other : e.isName = false) : r.inlineNode depth stack e = .ok e := by
  cases e <;> first | rfl | cases other

theorem inlineNode_stored {r : Resolver} {depth : Nat} {stack : List String} {name : String}
    (stored : r.schema.isStored name = true) :
    r.inlineNode depth stack (.column name) = .ok (.column name) := by
  rw [Schema.isStored, Option.any_eq_true] at stored
  obtain ⟨column, found, stored⟩ := stored
  cases column with
  | derived column => cases stored
  | _ => simp only [inlineNode, found]

theorem names_inlineWithin {r : Resolver} {depth : Nat} {stack : List String} {e x : Expr}
    (ok : r.inlineWithin depth stack e = .ok x) : ∀ node ∈ x.nodes, node.isName = true →
      ∃ name, node = .column name ∧ r.schema.isStored name = true := by
  -- A definition is opened with one derived column fewer left to open.
  induction depth using Nat.strongRecOn generalizing stack e x with
  | _ depth ih =>
    rw [inlineWithin_eq] at ok
    intro node member is
    rcases Expr.origin_transformM (fun _ => inlineNode_other) ok member with
      ⟨name, -, named, y, replaced, member⟩ | ⟨other, -⟩
    · cases name with
      | column name =>
        simp only [inlineNode] at replaced
        split at replaced
        · cases replaced
        · split at replaced
          · cases replaced
          · split at replaced
            · cases replaced
            · exact ih _ (Nat.lt_succ_self _) replaced node member is
        · rename_i column other found
          cases replaced
          refine ⟨name, Expr.mem_nodes_column.mp member, isStored_of_column? found ?_⟩
          cases column with
          | derived definition => exact absurd rfl (other definition)
          | _ => rfl
      | placeholder name =>
        obtain ⟨value, -, rfl⟩ := map_eq_ok.mp replaced
        obtain rfl := Expr.mem_nodes_literal.mp member
        cases is
      | _ => cases named
    · rw [is] at other
      cases other

theorem names_resolve {r : Resolver} {e x : Expr} (ok : r.resolve e = .ok x) :
    ∀ node ∈ x.nodes, node.isName = true →
      ∃ name, node = .column name ∧ r.schema.isStored name = true := by
  simp only [resolve, bind_eq_ok, pure_eq_ok] at ok
  obtain ⟨y, inlined, -, -, rfl⟩ := ok
  exact names_inlineWithin inlined

theorem isStored_resolve {r : Resolver} {e x : Expr} (ok : r.resolve e = .ok x) {name : String}
    (member : name ∈ x.columns) : r.schema.isStored name = true := by
  obtain ⟨other, same, stored⟩ := names_resolve ok _ (Expr.mem_columns.mp member) rfl
  cases same
  exact stored

theorem resolve_call {r : Resolver} {name : String} {args : List Expr} {x : Expr}
    (ok : r.resolve (.call name args) = .ok x) : ∃ args', x = .call name args' := by
  simp only [resolve, inline, bind_eq_ok, pure_eq_ok] at ok
  obtain ⟨y, inlined, -, -, rfl⟩ := ok
  rw [inlineWithin.eq_def] at inlined
  simp only [Expr.transformM, bind_eq_ok] at inlined
  obtain ⟨args', -, same⟩ := inlined
  exact ⟨args', (Except.ok.inj same).symm⟩

/-! ## Checked calls -/

section
variable {r : Resolver} {P : CompileError → Prop} {enclosing : Option String}

theorem failsOnly_checkCallsEach {es : List Expr}
    (each : ∀ e ∈ es, FailsOnly P (r.checkCalls enclosing e)) :
    FailsOnly P (r.checkCallsEach enclosing es) := by
  induction es with
  | nil => exact .ok ()
  | cons e rest ih =>
    exact (each e List.mem_cons_self).bind fun _ =>
      ih fun e listed => each e (List.mem_cons_of_mem _ listed)

/-- The check fails at unknown functions, at wrong numbers of arguments, and at aggregates inside of
others only. -/
theorem failsOnly_checkCalls {e : Expr}
    (unknown : ∀ name ∈ e.calls, r.registry.get? name = none → P (.unknownFunction name))
    (count : ∀ text name least greatest,
      P (.unsupported text (.argumentCount name least greatest)))
    (nested : ∀ outer inner, P (.nestedAggregate outer inner)) :
    FailsOnly P (r.checkCalls enclosing e) := by
  induction e generalizing enclosing with
  | literal value => exact .ok ()
  | column name => exact .ok ()
  | placeholder name => exact .ok ()
  | binary op left right ihl ihr =>
    exact (ihl fun name called => unknown name (by simp [called])).bind fun _ =>
      ihr fun name called => unknown name (by simp [called])
  | unary op operand ih => exact ih fun name called => unknown name (by simp [called])
  | inList operand items negated ih ihs =>
    refine (ih fun name called => unknown name (by simp [called])).bind fun _ =>
      failsOnly_checkCallsEach fun item listed => ihs item listed fun name called => ?_
    exact unknown name (Expr.mem_calls_inList.mpr (.inr ⟨item, listed, called⟩))
  | call function args ihs =>
    have inside : ∀ enclosing, FailsOnly P (r.checkCallsEach enclosing args) := fun enclosing =>
      failsOnly_checkCallsEach fun arg listed => ihs arg listed fun name called =>
        unknown name (Expr.mem_calls_call.mpr (.inr ⟨arg, listed, called⟩))
    rw [checkCalls]
    split
    · rename_i missing
      exact .error (unknown function (by simp) missing)
    · dsimp only
      split
      · exact .error (count ..)
      · split
        · exact .error (nested ..)
        · exact inside _
        · exact inside _

end

/-! ## Aggregated metrics -/

theorem aggregateMetricsEach_eq (r : Resolver) (es : List Expr) :
    r.aggregateMetricsEach es = es.map r.aggregateMetrics := by
  induction es with
  | nil => rfl
  | cons e rest ih => rw [aggregateMetricsEach, ih, List.map_cons]

/-- An aggregate stays as it is, a metric becomes the argument of its own, and anything else stays
the same operation, on operands whose metrics are aggregated. -/
theorem aggregateMetrics_cases (r : Resolver) (e : Expr) : r.aggregateMetrics e = e ∨
    (∃ name metric, e = .column name ∧ r.schema.metric? name = some metric ∧
      r.aggregateMetrics e = .call metric.aggregator.name [e]) ∨
    r.aggregateMetrics e = e.withOperands (e.children.map r.aggregateMetrics) := by
  cases e with
  | column name =>
    rw [aggregateMetrics]
    split
    · rename_i metric found
      exact .inr (.inl ⟨name, metric, rfl, found, rfl⟩)
    · exact .inl rfl
  | inList operand items negated =>
    rw [aggregateMetrics, aggregateMetricsEach_eq]
    exact .inr (.inr rfl)
  | call name args =>
    rw [aggregateMetrics, aggregateMetricsEach_eq]
    split
    · exact .inl rfl
    · exact .inr (.inr rfl)
  | _ => exact .inr (.inr rfl)

theorem mem_nodes_aggregateMetrics (r : Resolver) {e node : Expr}
    (member : node ∈ (r.aggregateMetrics e).nodes) :
    node ∈ e.nodes ∨ ∃ origin ∈ e.nodes, node = r.aggregateMetrics origin := by
  induction e using Expr.byChildren with
  | step e ih =>
    rcases r.aggregateMetrics_cases e with same | ⟨name, metric, -, -, same⟩ | same
    · rw [same] at member
      exact .inl member
    · rw [same] at member
      rcases Expr.mem_nodes_call.mp member with rfl | ⟨arg, listed, member⟩
      · exact .inr ⟨e, Expr.self_mem_nodes e, same.symm⟩
      · exact .inl (List.mem_singleton.mp listed ▸ member)
    · rw [same] at member
      rcases Expr.mem_walk.mp member with rfl | ⟨-, part, child, member⟩
      · exact .inr ⟨e, Expr.self_mem_nodes e, same.symm⟩
      · rw [Expr.children_withOperands (List.length_map ..)] at child
        obtain ⟨operand, among, rfl⟩ := List.mem_map.mp child
        have within := Expr.nodes_subset_of_child among
        exact (ih operand among member).imp (within ·)
          fun ⟨origin, inside, same⟩ => ⟨origin, within inside, same⟩

theorem column_of_aggregateMetrics {r : Resolver} {e : Expr} {name : String}
    (same : r.aggregateMetrics e = .column name) :
    e = .column name ∧ r.schema.metric? name = none := by
  cases e with
  | column other =>
    rw [aggregateMetrics] at same
    split at same
    · cases same
    · rename_i absent
      cases same
      exact ⟨rfl, absent⟩
  | call function args =>
    rw [aggregateMetrics] at same
    split at same <;> cases same
  | _ => cases same

/-- A call is left as it is, or it is the aggregate of a metric, or only its arguments change. -/
theorem call_of_aggregateMetrics {r : Resolver} {e : Expr} {name : String} {args : List Expr}
    (same : r.aggregateMetrics e = .call name args) :
    e = .call name args ∨
      (∃ column metric, e = .column column ∧ r.schema.metric? column = some metric ∧
        name = metric.aggregator.name ∧ args = [.column column]) ∨
      r.registry.isAggregate name = false ∧ ∃ others, e = .call name others := by
  cases e with
  | column column =>
    rw [aggregateMetrics] at same
    split at same
    · rename_i metric found
      cases same
      exact .inr (.inl ⟨column, metric, rfl, found, rfl, rfl⟩)
    · cases same
  | call function operands =>
    rw [aggregateMetrics] at same
    split at same
    · exact .inl same
    · rename_i unaggregated
      cases same
      exact .inr (.inr ⟨by simpa using unaggregated, operands, rfl⟩)
  | _ => cases same

theorem columns_aggregateMetrics (r : Resolver) {e : Expr} {name : String}
    (member : name ∈ (r.aggregateMetrics e).columns) : name ∈ e.columns := by
  rcases r.mem_nodes_aggregateMetrics (Expr.mem_columns.mp member) with
    kept | ⟨origin, within, same⟩
  · exact Expr.mem_columns.mpr kept
  · obtain ⟨rfl, -⟩ := column_of_aggregateMetrics same.symm
    exact Expr.mem_columns.mpr within

end Resolver

end Rollup
