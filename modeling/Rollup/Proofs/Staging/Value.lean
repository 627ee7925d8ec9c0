import Mathlib.Logic.Relation
import Rollup.Proofs.Compiler
import Rollup.Proofs.Plan

/-! Plans compute what queries say.

A stage names what the stage below it computes. With the expressions of the fields in the place of
their names, down to the table, an output is what it was before it was laid out in stages, and so is
every condition on groups or on outputs. The signs of zeros do not count, since expressions are
shared without regard to them.
-/

set_option autoImplicit false

namespace Rollup

/-- Put the expressions of fields in the place of their names, the nearest stage first. -/
def expand : List Stage → Sql.Expr → Option Sql.Expr
  | [], e => some e
  | stage :: below, e => do
    let e ← e.substitute? stage.expr?
    expand below e

/-- A condition on the rows that a stage reads. Where the names of its own fields are visible, these
stand for the expressions of the fields. -/
def Stage.inlined? (stage : Stage) (visible : Bool) (e : Sql.Expr) : Option Sql.Expr :=
  if visible then e.substitute? fun name => some ((stage.expr? name).getD (.named name)) else some e

namespace StageBuilder

/-- An aggregate in terms of the table. A window function looks at the rows with the same keys in
the same bucket. -/
def slotValue (b : StageBuilder) (slot : AggregateSlot) : Except CompileError Sql.Expr :=
  if slot.windowed then do
    let bucket ← b.bucketStart?
    b.renderer.windowCall slot.call (b.partition bucket)
  else b.renderer.slotExpr slot .table

def plainValue (b : StageBuilder) : Reference → Except CompileError Sql.Expr
  | .aggregate index => do
    let slot ← Renderer.target b.renderer.slots index
    b.slotValue slot
  | other => b.renderer.plainReference .table other

def innerValue (b : StageBuilder) : Reference → Except CompileError Sql.Expr
  | .shared index => do
    let shared ← Renderer.target b.renderer.shared index
    Renderer.groupExpr b.plainValue shared.expr
  | other => b.plainValue other

/-- What a reference stands for in terms of the table. -/
def value (b : StageBuilder) : Reference → Except CompileError Sql.Expr
  | .output index => do
    let output ← Renderer.target b.renderer.outputs index
    Renderer.groupExpr b.innerValue output.expr
  | other => b.innerValue other

/-- An expression over stages stands for an expression over groups of rows of the table. -/
def Means (b : StageBuilder) (below : List Stage) (written : Sql.Expr) (e : GroupExpr) : Prop :=
  ∃ x y, expand below written = some x ∧ Renderer.groupExpr b.value e = .ok y ∧
    x.unsignZeros = y.unsignZeros

/-- The outputs and the conditions that are written in stages stand for those of a query. -/
structure Computed (b : StageBuilder) (visible : Bool) (plan : Plan) (last : Stage) : Prop where
  outermost : plan.outermost? = some last
  keys : ∀ key ∈ b.keys, ∃ e, last.expr? key.name = some e ∧
    expand plan.inner e = some (.named key.column)
  outputs : ∀ output ∈ b.renderer.outputs, ∃ e, last.expr? output.name = some e ∧
    b.Means plan.inner e output.expr
  groups : ∀ index stage e, plan.stages[index]? = some stage → stage.having = some e →
    ∃ written, Sql.conjunction? written = some e ∧
      List.Forall₂ (fun condition x => b.Means (plan.stages.take index).reverse x condition.expr)
        (b.conditions.filter (·.level == .group)) written
  results : 1 < plan.depth → ∃ written, last.filter = Sql.conjunction? written ∧
    List.Forall₂ (fun condition x => ∃ inlined, last.inlined? visible x = some inlined ∧
        b.Means plan.inner inlined condition.expr)
      (b.conditions.filter (·.level == .output)) written

variable {b : StageBuilder} {scope : Scope} {below : List Stage} {stage : Stage}

/-! ## Expansion -/

/-- The expansion of an expression, where null tests stay what they are in every stage. -/
def Expands : List Stage → Sql.Expr → Sql.Expr → Prop
  | [] => Eq
  | stage :: below => Relation.Comp (Renderer.Replaced stage.expr?) (Expands below)

theorem congruent_expands (below : List Stage) : Renderer.Congruent (Expands below) := by
  induction below with
  | nil => exact Renderer.congruent_eq
  | cons stage below ih => exact (Renderer.congruent_replaced _).comp ih

theorem expand_of_expands {x y : Sql.Expr} (expands : Expands below x y) :
    expand below x = some y := by
  induction below generalizing x with
  | nil => exact congrArg some expands
  | cons stage below ih =>
    obtain ⟨z, replaced, expands⟩ := expands
    rw [expand, replaced.1]
    exact ih expands

theorem expands_named {name : String} {e y : Sql.Expr} (found : stage.expr? name = some e)
    (compound : Renderer.isNull e = false) (expands : Expands below e y) :
    Expands (stage :: below) (.named name) y :=
  ⟨e, ⟨found, compound⟩, expands⟩

/-! ## Values in terms of the table -/

theorem plainValue_aggregate {index : Nat} {x : Sql.Expr} :
    b.plainValue (.aggregate index) = .ok x ↔
      ∃ slot, b.renderer.slots[index]? = some slot ∧ b.slotValue slot = .ok x := by
  simp only [plainValue, bind_eq_ok, Renderer.target_eq_ok]

theorem innerValue_shared {index : Nat} {x : Sql.Expr} :
    b.innerValue (.shared index) = .ok x ↔ ∃ part, b.renderer.shared[index]? = some part ∧
      Renderer.groupExpr b.plainValue part.expr = .ok x := by
  simp only [innerValue, bind_eq_ok, Renderer.target_eq_ok]

theorem value_output {index : Nat} {x : Sql.Expr} :
    b.value (.output index) = .ok x ↔ ∃ output, b.renderer.outputs[index]? = some output ∧
      Renderer.groupExpr b.innerValue output.expr = .ok x := by
  simp only [value, bind_eq_ok, Renderer.target_eq_ok]

theorem innerValue_of_isLifted {target : Reference} (is : target.isLifted = true) :
    b.innerValue target = b.plainValue target := by
  cases target <;> first | rfl | cases is

theorem value_of_isLifted {target : Reference} (is : target.isLifted = true) :
    b.value target = b.plainValue target := by
  cases target <;> first | rfl | cases is

theorem slotValue_of_grouped {slot : AggregateSlot} (grouped : slot.windowed = false) :
    b.slotValue slot = b.renderer.aggregate slot.call := by
  rw [slotValue, grouped, if_neg (by simp), Renderer.slotExpr_of_call (by simp) grouped]

theorem slotValue_of_windowed {slot : AggregateSlot} {bucket : Option Sql.Expr}
    (windowed : slot.windowed = true) (start : b.bucketStart? = .ok bucket) :
    b.slotValue slot = b.renderer.windowCall slot.call (b.partition bucket) := by
  rw [slotValue, if_pos windowed, start]
  rfl

/-! ## Scopes -/

-- The invariant of staging: one statement for each place where references are written, from the
-- table up. It is about references only, since writing and expanding respect how expressions are
-- put together.

/-- What is written in a scope expands to what it is in terms of the table. -/
def Expandable (b : StageBuilder) (scope : Scope) (below : List Stage) : Prop :=
  ∀ target : Reference, target.isInner = true → ∀ x,
    b.renderer.innerReference scope target = .ok x →
    ∃ y, b.innerValue target = .ok y ∧ Expands below x y

theorem expandable_of_plain (refers : b.Refers) (early : scope ≠ .groups)
    (plain : ∀ target : Reference, target.isLifted = true → ∀ x,
      b.renderer.plainReference scope target = .ok x →
      ∃ y, b.plainValue target = .ok y ∧ Expands below x y) :
    b.Expandable scope below := by
  intro target is x ok
  cases target with
  | key index => exact plain (.key index) rfl x ok
  | aggregate index => exact plain (.aggregate index) rfl x ok
  | shared index =>
    obtain ⟨part, found, ok⟩ := (Renderer.shared_of_expr early).mp ok
    have lifted := refers.shared part (List.mem_of_getElem? found)
    obtain ⟨y, ok, expands⟩ := Renderer.groupExpr_related (congruent_expands below)
      (fun _ _ => trivial) (fun target member => plain target (lifted target member)) ok
    exact ⟨y, innerValue_shared.mpr ⟨part, found, ok⟩, expands⟩
  | _ => cases is

theorem expandable_table (refers : b.Refers)
    (grouped : ∀ slot ∈ b.renderer.slots, slot.windowed = false) : b.Expandable .table [] := by
  refine expandable_of_plain refers (by simp) fun target is x ok => ⟨x, ?_, rfl⟩
  cases target with
  | key index => exact ok
  | aggregate index =>
    obtain ⟨slot, found, ok⟩ := Renderer.aggregate_eq_ok.mp ok
    have computed := grouped slot (List.mem_of_getElem? found)
    rw [Renderer.slotExpr_of_call (by simp) computed] at ok
    exact plainValue_aggregate.mpr ⟨slot, found, (slotValue_of_grouped computed).trans ok⟩
  | _ => cases is

theorem expandable_window (regular : b.renderer.dialect.Regular) (refers : b.Refers)
    (distinct : b.Distinct) (visible : bucketName ∉ b.carried)
    (carries : ∀ slot ∈ b.renderer.slots, slot.windowed = false →
      ∀ column ∈ Compiler.slotColumns b.renderer.timeColumn slot,
        column ∈ b.carried ∨ GroupKey.mk column column ∈ b.keys)
    (windows : b.Windows stage) : b.Expandable .window [stage] := by
  -- Here the bucket matters: a carried column of its name would be read in its place.
  have names := distinct.windows windows visible
  refine expandable_of_plain refers (by simp) fun target is x ok => ?_
  cases target with
  | key index =>
    obtain ⟨key, found, rfl⟩ := Renderer.key_eq_ok.mp ok
    have field := Stage.expr?_of_mem names (windows.key_mem (List.mem_of_getElem? found))
    exact ⟨_, Renderer.key_eq_ok.mpr ⟨key, found, rfl⟩, expands_named field rfl rfl⟩
  | aggregate index =>
    obtain ⟨slot, found, ok⟩ := Renderer.aggregate_eq_ok.mp ok
    have listed := List.mem_of_getElem? found
    cases windowed : slot.windowed with
    | true =>
      obtain ⟨given, named, rfl⟩ := (Renderer.slotExpr_of_name (.inr windowed)).mp ok
      obtain ⟨bucket, e, start, written, member⟩ := windows.slot_mem listed windowed named
      have field := Stage.expr?_of_mem names member
      refine ⟨e, plainValue_aggregate.mpr ⟨slot, found, ?_⟩,
        expands_named field (Renderer.columns_windowCall written).1 rfl⟩
      rw [slotValue_of_windowed windowed start]
      exact written
    | false =>
      rw [Renderer.slotExpr_of_call (by simp) windowed] at ok
      have made := Renderer.over_aggregate regular ok
      -- The columns of the aggregate are passed on under their own names.
      have kept : x.substitute? stage.expr? = some x := by
        refine made.kept _ fun part member => ?_
        obtain ⟨column, read, rfl⟩ := List.mem_map.mp member
        rcases carries slot listed windowed column read with carried | key
        · exact Stage.expr?_of_mem names (windows.carried_mem carried)
        · exact Stage.expr?_of_mem names (windows.key_mem key)
      have value := (slotValue_of_grouped windowed).trans ok
      exact ⟨x, plainValue_aggregate.mpr ⟨slot, found, value⟩, x, ⟨kept, rfl⟩, rfl⟩
  | _ => cases is

theorem expandable_groups (regular : b.renderer.dialect.Regular) (refers : b.Refers)
    (distinct : b.Distinct) (passes : b.Passes scope stage) (inner : b.Expandable scope below)
    (grouping : scope ≠ .groups)
    (early : scope = .table → ∀ slot ∈ b.renderer.slots, slot.windowed = false) :
    b.Expandable .groups (stage :: below) := by
  have names := distinct.passes passes
  intro target is x ok
  cases target with
  | key index =>
    obtain ⟨key, found, rfl⟩ := Renderer.key_eq_ok.mp ok
    have field := Stage.expr?_of_mem names (passes.key_mem (List.mem_of_getElem? found))
    obtain ⟨y, value, expands⟩ :=
      inner (.key index) rfl _ (Renderer.key_eq_ok.mpr ⟨key, found, rfl⟩)
    refine ⟨y, value, expands_named field ?_ expands⟩
    cases scope <;> rfl
  | aggregate index =>
    obtain ⟨slot, found, ok⟩ := Renderer.aggregate_eq_ok.mp ok
    obtain ⟨given, named, rfl⟩ := (Renderer.slotExpr_of_name (.inl rfl)).mp ok
    have listed := List.mem_of_getElem? found
    -- The field of an aggregate is what the aggregate is written as below.
    have field : ∃ e, stage.expr? given = some e ∧ Renderer.isNull e = false ∧
        b.renderer.slotExpr slot scope = .ok e := by
      cases windowed : slot.windowed with
      | true =>
        have late : scope ≠ .table := fun table => by
          cases windowed.symm.trans (early table slot listed)
        refine ⟨.named given, ?_, rfl, ?_⟩
        · exact Stage.expr?_of_mem names (passes.window_mem late listed windowed named)
        · exact (Renderer.slotExpr_of_name (.inr windowed)).mpr ⟨given, named, rfl⟩
      | false =>
        obtain ⟨e, written, member⟩ := passes.slot_mem listed windowed named
        have compound := (Renderer.over_aggregate regular written).compound
        exact ⟨e, Stage.expr?_of_mem names member, compound,
          (Renderer.slotExpr_of_call grouping windowed).trans written⟩
    obtain ⟨e, field, compound, written⟩ := field
    obtain ⟨y, value, expands⟩ :=
      inner (.aggregate index) rfl e (Renderer.aggregate_eq_ok.mpr ⟨slot, found, written⟩)
    exact ⟨y, value, expands_named field compound expands⟩
  | shared index =>
    obtain ⟨part, found, given, named, rfl⟩ := Renderer.shared_of_name.mp ok
    have listed := List.mem_of_getElem? found
    obtain ⟨e, rendered, member⟩ := passes.shared_mem listed named
    have written := Renderer.render_of_isLifted (refers.shared part listed) rendered
    obtain ⟨y, value, expands⟩ :=
      inner (.shared index) rfl e ((Renderer.shared_of_expr grouping).mpr ⟨part, found, written⟩)
    have compound := Renderer.isNull_groupExpr (refers.compound part listed) written
    exact ⟨y, value, expands_named (Stage.expr?_of_mem names member) compound expands⟩
  | _ => cases is

theorem Expandable.expr (expandable : b.Expandable scope below) {e : GroupExpr} {x : Sql.Expr}
    (inner : ∀ target ∈ e.references, target.isInner = true)
    (ok : Renderer.groupExpr (b.renderer.innerReference scope) e = .ok x) :
    ∃ y, Renderer.groupExpr b.innerValue e = .ok y ∧ Expands below x y :=
  Renderer.groupExpr_related (congruent_expands below) (fun _ _ => trivial)
    (fun target member => expandable target (inner target member)) ok

/-! ## Expressions before they were shared -/

/-- A builder and the same one before expressions were shared and fields got their names. -/
structure Unshares (b u : StageBuilder) : Prop where
  keys : u.keys = b.keys
  conditions : u.conditions = b.conditions
  value : ∀ target : Reference, target.isLifted = true → u.plainValue target = b.plainValue target
  outputs : List.Forall₂ (SharedFrom (b.renderer.shared.map (·.expr))) u.renderer.outputs
    b.renderer.outputs
  lifted : ∀ output ∈ u.renderer.outputs, output.IsLifted u.keys

theorem plainValue_unshare {e : GroupExpr} {x : Sql.Expr}
    (inner : ∀ target ∈ e.references, target.isInner = true)
    (ok : Renderer.groupExpr b.innerValue e = .ok x) :
    Renderer.groupExpr b.plainValue (e.unshare (b.renderer.shared.map (·.expr))) = .ok x := by
  -- Writing a shared expression is writing its definition, and all else stands for itself.
  have each : ∀ target ∈ e.references, ∀ x, b.innerValue target = .ok x →
      ∃ y, Renderer.groupExpr b.plainValue
        (definitionIn (b.renderer.shared.map (·.expr)) target) = .ok y ∧ x = y := by
    intro target member x ok
    have is := inner target member
    refine ⟨x, ?_, rfl⟩
    cases target with
    | shared index =>
      obtain ⟨part, found, ok⟩ := innerValue_shared.mp ok
      simpa [definitionIn, found] using ok
    | key index => exact ok
    | aggregate index => exact ok
    | _ => cases is
  rw [GroupExpr.unshare, ← Renderer.groupExpr_substitute]
  obtain ⟨y, ok, rfl⟩ :=
    Renderer.groupExpr_related Renderer.congruent_eq (fun _ _ => trivial) each ok
  exact ok

namespace Unshares
variable {u : StageBuilder} (unshares : b.Unshares u)
include unshares

theorem expr_of_plain {f : Reference → Except CompileError Sql.Expr} {e : GroupExpr} {x : Sql.Expr}
    (lifted : ∀ target ∈ e.references, target.isLifted = true)
    (same : ∀ target : Reference, target.isLifted = true → f target = b.plainValue target)
    (ok : Renderer.groupExpr f e = .ok x) :
    Renderer.groupExpr u.innerValue e = .ok x ∧ Renderer.groupExpr u.value e = .ok x := by
  have inner : ∀ target ∈ e.references, f target = u.innerValue target := fun target member => by
    have is := lifted target member
    rw [same target is, ← unshares.value target is, innerValue_of_isLifted is]
  refine ⟨Renderer.groupExpr_of_same inner ok,
    Renderer.groupExpr_of_same (fun target member => (inner target member).trans ?_) ok⟩
  have is := lifted target member
  rw [innerValue_of_isLifted is, value_of_isLifted is]

/-- An output is what it was before expressions were shared, up to the signs of zeros. -/
theorem output {original output : Output} {x : Sql.Expr} (listed : original ∈ u.renderer.outputs)
    (from_ : SharedFrom (b.renderer.shared.map (·.expr)) original output)
    (inner : ∀ target ∈ output.expr.references, target.isInner = true)
    (ok : Renderer.groupExpr b.innerValue output.expr = .ok x) :
    ∃ y, (Renderer.groupExpr u.innerValue original.expr = .ok y ∧
      Renderer.groupExpr u.value original.expr = .ok y) ∧ x.unsignZeros = y.unsignZeros := by
  obtain ⟨y, ok, same⟩ := Renderer.groupExpr_same from_.same (plainValue_unshare inner ok)
  have lifted := (unshares.lifted original listed).isLifted
  exact ⟨y, unshares.expr_of_plain lifted (fun _ _ => rfl) ok, same⟩

theorem means_output {original output : Output} {x : Sql.Expr}
    (expandable : b.Expandable scope below) (listed : original ∈ u.renderer.outputs)
    (from_ : SharedFrom (b.renderer.shared.map (·.expr)) original output)
    (inner : ∀ target ∈ output.expr.references, target.isInner = true)
    (ok : b.renderer.render scope output.expr = .ok x) : u.Means below x original.expr := by
  obtain ⟨y, ok, expands⟩ := expandable.expr inner (Renderer.render_of_isInner inner ok)
  obtain ⟨z, ⟨-, ok⟩, same⟩ := unshares.output listed from_ inner ok
  exact ⟨y, z, expand_of_expands expands, ok, same⟩

theorem means_group {e : GroupExpr} {x : Sql.Expr} (expandable : b.Expandable scope below)
    (lifted : ∀ target ∈ e.references, target.isLifted = true)
    (ok : b.renderer.render scope e = .ok x) : u.Means below x e := by
  have inner := fun target member => Reference.isInner_of_isLifted (lifted target member)
  obtain ⟨y, ok, expands⟩ := expandable.expr inner (Renderer.render_of_isInner inner ok)
  obtain ⟨-, ok⟩ := unshares.expr_of_plain lifted (fun _ => innerValue_of_isLifted) ok
  exact ⟨y, y, expand_of_expands expands, ok, rfl⟩

end Unshares

/-! ## Conditions on outputs -/

/-- A condition with the fields beside it in place, where null tests stay what they are. -/
def Inlines (last : Stage) (visible : Bool) (x x' : Sql.Expr) : Prop :=
  last.inlined? visible x = some x' ∧ Renderer.isNull x' = Renderer.isNull x

theorem inlines_hidden {last : Stage} : Inlines last false = Eq := by
  funext x x'
  simp only [Inlines, Stage.inlined?, Bool.false_eq_true, if_false, Option.some.injEq, eq_iff_iff]
  constructor
  · exact And.left
  · rintro rfl
    exact ⟨rfl, rfl⟩

theorem congruent_inlines (last : Stage) (visible : Bool) :
    Renderer.Congruent (Inlines last visible) := by
  cases visible with
  | true => exact Renderer.congruent_replaced _
  | false => exact inlines_hidden ▸ Renderer.congruent_eq

/-- How a condition of the last stage is related to what it says: the names of outputs are replaced
first, then those of the fields below, and at last signs of zeros are dropped. -/
def Resolves (last : Stage) (visible : Bool) (below : List Stage) : Sql.Expr → Sql.Expr → Prop :=
  Relation.Comp (Inlines last visible)
    (Relation.Comp (Expands below) fun y z : Sql.Expr => y.unsignZeros = z.unsignZeros)

theorem congruent_resolves (last : Stage) (visible : Bool) (below : List Stage) :
    Renderer.Congruent (Resolves last visible below) :=
  (congruent_inlines last visible).comp
    ((congruent_expands below).comp Renderer.congruent_unsignZeros)

theorem inlines_named {last : Stage} {name : String}
    (own : ∀ e, last.expr? name = some e → e = .named name) (visible : Bool) :
    Inlines last visible (.named name) (.named name) := by
  cases visible with
  | false => exact ⟨rfl, rfl⟩
  | true =>
    refine ⟨?_, rfl⟩
    cases found : last.expr? name with
    | none => simp [Stage.inlined?, found]
    | some e => simp [Stage.inlined?, found, own e found]

namespace Computes
variable {last : Stage} (computes : b.Computes last) (distinct : b.Distinct)
include computes distinct

/-- The names of keys and aggregates stand for themselves also beside the outputs. -/
theorem inlines_plain {target : Reference} (is : target.isLifted = true) {x : Sql.Expr}
    (ok : b.renderer.innerReference .groups target = .ok x) (visible : Bool) :
    Inlines last visible x x := by
  have names := distinct.selects computes.toSelects
  cases target with
  | key index =>
    obtain ⟨key, found, rfl⟩ := Renderer.key_eq_ok.mp ok
    refine inlines_named (fun e own => ?_) visible
    have field := Stage.expr?_of_mem names
      (computes.toSelects.key_mem (List.mem_of_getElem? found))
    exact Option.some.inj (own.symm.trans field)
  | aggregate index =>
    obtain ⟨slot, found, ok⟩ := Renderer.aggregate_eq_ok.mp ok
    obtain ⟨name, named, rfl⟩ := (Renderer.slotExpr_of_name (.inl rfl)).mp ok
    refine inlines_named (fun e own => ?_) visible
    obtain ⟨bucket, outputs, start, each, fields⟩ := computes.toSelects.fields
    have member := fields ▸ Stage.mem_of_expr? own
    have given : name ∈ fieldNames b.renderer.slots :=
      mem_fieldNames.mpr ⟨slot, List.mem_of_getElem? found, named⟩
    -- If an own field has the name of the aggregate, then it is an output that is this aggregate.
    rcases List.mem_append.mp member with head | member
    · -- The bucket and the keys have names of their own.
      have listed := List.mem_map_of_mem (f := Field.name) head
      rw [List.map_append, names_bucketFields (isSome_bucketAt start), names_keyFields] at listed
      exact absurd rfl ((List.nodup_append.mp distinct.fields).2.2 name listed name
        (List.mem_append_left _ given))
    · obtain ⟨output, listed, same, written⟩ := related_of_mem_right each member
      have whole := distinct.slotOutput index slot name found named output listed same.symm
      rw [whole] at written
      obtain ⟨slot', found', written⟩ := Renderer.aggregate_eq_ok.mp written
      cases found.symm.trans found'
      obtain ⟨name', named', rfl⟩ := (Renderer.slotExpr_of_name (.inl rfl)).mp written
      cases named.symm.trans named'
      rfl
  | _ => cases is

theorem inlines_output (refers : b.Refers) {index : Nat} {output : Output}
    (found : b.renderer.outputs[index]? = some output) (computed : output.kind = .computed)
    {x : Sql.Expr} (ok : b.renderer.reference .groups (.output index) = .ok x) :
    ∃ e, Inlines last b.renderer.dialect.aliasInWhere x e ∧
      Renderer.groupExpr (b.renderer.innerReference .groups) output.expr = .ok e := by
  have listed := List.mem_of_getElem? found
  have inner := refers.outputs output listed
  obtain ⟨output', found', ok⟩ := Renderer.output_eq_ok.mp ok
  cases found.symm.trans found'
  cases visible : b.renderer.dialect.aliasInWhere with
  | false =>
    rw [visible] at ok
    exact ⟨x, ⟨rfl, rfl⟩, ok⟩
  | true =>
    rw [visible] at ok
    obtain rfl : Sql.Expr.named output.name = x := ok
    have selected : output ∈ b.selected :=
      List.mem_filter.mpr ⟨listed, by rw [Output.isKey_of_computed computed]; rfl⟩
    obtain ⟨e, rendered, member⟩ := computes.toSelects.output_mem selected
    have own := Stage.expr?_of_mem (distinct.selects computes.toSelects) member
    have written := Renderer.render_of_isInner inner rendered
    -- An output that is wholly shared is written as a name, any other one as a compound expression.
    have compound : Renderer.isNull e = false := by
      rcases refers.computed output listed computed with compound | ⟨shared, whole⟩
      · exact Renderer.isNull_groupExpr compound written
      · rw [whole] at written
        obtain ⟨part, -, name, -, rfl⟩ := Renderer.shared_of_name.mp written
        rfl
    refine ⟨e, ⟨?_, compound⟩, written⟩
    simp [Stage.inlined?, own]

end Computes

theorem Unshares.means_result {u : StageBuilder} (unshares : b.Unshares u) (refers : b.Refers)
    (distinct : b.Distinct) {last : Stage} (computes : b.Computes last)
    (expandable : b.Expandable .groups below) {condition : Condition}
    (member : condition ∈ b.conditions) (level : condition.level = .output) {x : Sql.Expr}
    (ok : b.renderer.render .groups condition.expr = .ok x) :
    ∃ inlined, last.inlined? b.renderer.dialect.aliasInWhere x = some inlined ∧
      u.Means below inlined condition.expr := by
  let visible := b.renderer.dialect.aliasInWhere
  -- The three steps are taken together, at the references: each of them respects how the condition
  -- is put together, and so does their composition.
  have each : ∀ target ∈ condition.expr.references, ∀ x,
      b.renderer.reference .groups target = .ok x →
      ∃ z, u.value target = .ok z ∧ Resolves last visible below x z := by
    intro target refersTo x ok
    rcases refers.output condition member level target refersTo with
      lifted | ⟨index, output, rfl, found, computed⟩
    · have inner := Reference.isInner_of_isLifted lifted
      rw [Renderer.reference_of_isInner inner] at ok
      obtain ⟨y, value, expands⟩ := expandable target inner x ok
      refine ⟨y, ?_, x, computes.inlines_plain distinct lifted ok visible, y, expands, rfl⟩
      rw [value_of_isLifted lifted, unshares.value target lifted, ← value,
        innerValue_of_isLifted lifted]
    · have inner := refers.outputs output (List.mem_of_getElem? found)
      obtain ⟨e, inlines, written⟩ := computes.inlines_output distinct refers found computed ok
      obtain ⟨original, place, from_⟩ := related_getElem? unshares.outputs.flip found
      obtain ⟨y, ok, expands⟩ := expandable.expr inner written
      obtain ⟨z, ⟨value, -⟩, same⟩ :=
        unshares.output (List.mem_of_getElem? place) from_ inner ok
      exact ⟨z, value_output.mpr ⟨original, place, value⟩, e, inlines, y, expands, same⟩
  obtain ⟨z, value, inlined, inlines, y, expands, same⟩ :=
    Renderer.groupExpr_related (congruent_resolves last visible below) (fun _ _ => trivial) each ok
  exact ⟨inlined, inlines.1, y, z, expand_of_expands expands, value, same⟩

/-! ## Stages -/

namespace Unshares
variable {u : StageBuilder} (unshares : b.Unshares u)
include unshares

theorem keys_computed (distinct : b.Distinct) (expandable : b.Expandable scope below)
    {last : Stage} (selects : b.Selects scope last) {key : GroupKey} (member : key ∈ u.keys) :
    ∃ e, last.expr? key.name = some e ∧ expand below e = some (.named key.column) := by
  rw [unshares.keys] at member
  obtain ⟨index, found⟩ := List.mem_iff_getElem?.mp member
  have field := Stage.expr?_of_mem (distinct.selects selects) (selects.key_mem member)
  have written : b.renderer.innerReference scope (.key index) = .ok (Renderer.keyExpr key scope) :=
    Renderer.key_eq_ok.mpr ⟨key, found, rfl⟩
  obtain ⟨y, value, expands⟩ := expandable (.key index) rfl _ written
  obtain ⟨key', found', rfl⟩ := Renderer.key_eq_ok.mp value
  cases found.symm.trans found'
  exact ⟨_, field, expand_of_expands expands⟩

theorem outputs_computed (refers : b.Refers) (distinct : b.Distinct)
    (expandable : b.Expandable scope below) {last : Stage} (selects : b.Selects scope last)
    {output : Output} (member : output ∈ u.renderer.outputs) :
    ∃ e, last.expr? output.name = some e ∧ u.Means below e output.expr := by
  have names := distinct.selects selects
  have lifted := unshares.lifted output member
  -- A key that is selected under its own name has the field of the key; there is no second one.
  cases selected : output.isKey with
  | true =>
    obtain ⟨index, is⟩ : ∃ index, output.kind = .key index := by
      unfold Output.isKey at selected
      split at selected
      · exact ⟨_, by assumption⟩
      · cases selected
    obtain ⟨whole, key, found, same⟩ := lifted.of_key is
    rw [unshares.keys] at found
    have field := Stage.expr?_of_mem names (selects.key_mem (List.mem_of_getElem? found))
    refine ⟨_, same ▸ field, unshares.means_group expandable lifted.isLifted ?_⟩
    rw [whole]
    exact Renderer.key_eq_ok.mpr ⟨key, found, rfl⟩
  | false =>
    obtain ⟨output', listed, from_⟩ := related_of_mem_left unshares.outputs member
    have among : output' ∈ b.selected := by
      refine List.mem_filter.mpr ⟨listed, ?_⟩
      rw [Output.isKey, from_.kind, ← Output.isKey, selected]
      rfl
    obtain ⟨e, written, field⟩ := selects.output_mem among
    refine ⟨e, from_.name ▸ Stage.expr?_of_mem names field, ?_⟩
    exact unshares.means_output expandable member from_ (refers.outputs output' listed) written

theorem groups_computed (refers : b.Refers) (expandable : b.Expandable scope below)
    {e : Sql.Expr} (ok : b.groupFilter scope = .ok stage.having) (there : stage.having = some e) :
    ∃ written, Sql.conjunction? written = some e ∧
      List.Forall₂ (fun condition x => u.Means below x condition.expr)
        (u.conditions.filter (·.level == .group)) written := by
  obtain ⟨written, each, same⟩ := groupFilter_eq_ok.mp ok
  refine ⟨written, same.symm.trans there, ?_⟩
  rw [unshares.conditions]
  refine forall₂_imp_of_mem each fun condition member x ok => ?_
  obtain ⟨member, level⟩ := List.mem_filter.mp member
  exact unshares.means_group expandable (refers.group condition member (beq_iff_eq.mp level)) ok

theorem results_computed (refers : b.Refers) (distinct : b.Distinct) {last : Stage}
    (computes : b.Computes last) (expandable : b.Expandable .groups below) :
    ∃ written, last.filter = Sql.conjunction? written ∧
      List.Forall₂ (fun condition x => ∃ inlined,
          last.inlined? b.renderer.dialect.aliasInWhere x = some inlined ∧
            u.Means below inlined condition.expr)
        (u.conditions.filter (·.level == .output)) written := by
  obtain ⟨written, each, same⟩ := outputFilter_eq_ok.mp computes.filter
  refine ⟨written, same, ?_⟩
  rw [unshares.conditions]
  refine forall₂_imp_of_mem each fun condition member x ok => ?_
  obtain ⟨member, level⟩ := List.mem_filter.mp member
  exact unshares.means_result refers distinct computes expandable member (beq_iff_eq.mp level) ok

end Unshares

/-- Whatever the layout is, the stages compute what was there before they were laid out. -/
theorem computed_of_built {u : StageBuilder} {layout : Layout} {stages : List Stage}
    (built : b.Built layout stages) (unshares : b.Unshares u) {schema : Schema}
    (sound : b.Sound layout schema) (regular : b.renderer.dialect.Regular)
    (visible : bucketName ∉ b.carried) (checked : b.checkConditions layout = .ok ())
    (orderBy : List (Sql.SortKey Sql.Expr)) (rows : Option Sql.RowWindow) :
    ∃ last, u.Computed b.renderer.dialect.aliasInWhere ⟨Compiler.finish orderBy rows stages⟩
      last := by
  have refers := sound.refers
  have distinct := sound.distinct
  cases built with
  | @flat stage groups selects =>
    have table := expandable_table refers (sound.grouped rfl)
    refine ⟨{ stage with orderBy, rows }, rfl,
      fun key => unshares.keys_computed distinct table selects,
      fun output => unshares.outputs_computed refers distinct table selects, ?_, ?_⟩
    · rintro (_ | index) found e place there
      · cases place
        exact unshares.groups_computed refers table groups.having there
      · cases place
    · exact fun deep => absurd deep (Nat.lt_irrefl 1)
  | @computed stage last groups passes computes =>
    have grouped := sound.grouped rfl
    have table := expandable_table refers grouped
    have results := expandable_groups regular refers distinct passes table (by simp)
      fun _ => grouped
    have tested := unshares.results_computed refers distinct computes results
    refine ⟨{ last with orderBy, rows }, rfl,
      fun key => unshares.keys_computed distinct results computes.toSelects,
      fun output => unshares.outputs_computed refers distinct results computes.toSelects, ?_,
      fun _ => tested⟩
    rintro (_ | _ | index) found e place there
    · cases place
      exact unshares.groups_computed refers table groups.having there
    · cases place
      cases computes.having.symm.trans there
    · cases place
  | @windowed first stage windows groups selects =>
    have window := expandable_window regular refers distinct visible (sound.carries rfl) windows
    refine ⟨{ stage with orderBy, rows }, rfl,
      fun key => unshares.keys_computed distinct window selects,
      fun output => unshares.outputs_computed refers distinct window selects, ?_, fun _ => ?_⟩
    · rintro (_ | _ | index) found e place there
      · cases place
        cases windows.having.symm.trans there
      · cases place
        exact unshares.groups_computed refers window groups.having there
      · cases place
    · -- There is no condition on outputs where no stage could test it.
      have none : u.conditions.filter (·.level == .output) = [] := by
        rw [unshares.conditions]
        exact outputConditions_of_check checked rfl
      exact ⟨[], groups.filter, none ▸ .nil⟩
  | @windowedComputed first stage last windows groups passes computes =>
    have window := expandable_window regular refers distinct visible (sound.carries rfl) windows
    have results := expandable_groups regular refers distinct passes window (by simp)
      fun table => nomatch table
    have tested := unshares.results_computed refers distinct computes results
    refine ⟨{ last with orderBy, rows }, rfl,
      fun key => unshares.keys_computed distinct results computes.toSelects,
      fun output => unshares.outputs_computed refers distinct results computes.toSelects, ?_,
      fun _ => tested⟩
    rintro (_ | _ | _ | index) found e place there
    · cases place
      cases windows.having.symm.trans there
    · cases place
      exact unshares.groups_computed refers window groups.having there
    · cases place
      cases computes.having.symm.trans there
    · cases place

end StageBuilder

namespace Compiler

variable {c : Compiler} {query : Query} {seconds : Option Int} {a : Analysis}
  {carried : List String}

theorem slotValue_unstaged (slot : AggregateSlot) :
    (c.unstaged query seconds a).slotValue slot.unnamed =
      (c.builder query seconds a carried).slotValue slot := by
  -- Neither way of computing an aggregate looks at its name.
  cases windowed : slot.windowed with
  | true =>
    simp only [StageBuilder.slotValue, AggregateSlot.unnamed, windowed]
    rfl
  | false =>
    have unnamed : slot.unnamed.windowed = false := windowed
    rw [StageBuilder.slotValue_of_grouped unnamed, StageBuilder.slotValue_of_grouped windowed]
    rfl

theorem unshares_builder (sound : a.Sound c query seconds)
    (calls : (c.named a carried).1.map (·.unnamed) = c.slots a.calls)
    (exprs : (c.named a carried).2.map (·.expr) = (c.sharing a).2.map (·.expr)) :
    (c.builder query seconds a carried).Unshares (c.unstaged query seconds a) where
  keys := rfl
  conditions := rfl
  value := by
    intro target is
    cases target with
    | key index => rfl
    | aggregate index =>
      have unnamed : Renderer.target (c.slots a.calls) index =
          (Renderer.target (c.named a carried).1 index).map (·.unnamed) := by
        rw [← calls, Renderer.target_map]
      show (Renderer.target (c.slots a.calls) index >>= (c.unstaged query seconds a).slotValue) =
        (Renderer.target (c.named a carried).1 index >>=
          (c.builder query seconds a carried).slotValue)
      rw [unnamed]
      cases Renderer.target (c.named a carried).1 index with
      | error fault => rfl
      | ok slot => exact slotValue_unstaged slot
    | _ => cases is
  outputs := by
    have each := (sharing_of_sound sound).each
    rw [← exprs] at each
    exact each
  lifted := sound.outputs

/-- A plan computes what its query selects and tests. -/
theorem computed_plan {database : Sql.Database} {plan : Plan}
    (dialect : c.dialect = database.dialect) (visible : bucketName ∉ c.schema.names)
    (ok : c.plan query = .ok plan) :
    ∃ seconds a last, bucketSeconds query = .ok seconds ∧
      c.analyze query ⟨c.schema, c.registry, seconds⟩ = .ok a ∧
      (c.unstaged query seconds a).Computed c.dialect.aliasInWhere plan last := by
  obtain ⟨seconds, a, carried, stages, orderBy, accepts⟩ := accepts_of_plan ok
  have regular : (c.builder query seconds a carried).renderer.dialect.Regular := by
    show c.dialect.Regular
    exact dialect ▸ Sql.regular_dialect database
  have unhidden : bucketName ∉ (c.builder query seconds a carried).carried := fun member =>
    visible (mem_names_of_isStored (accepts.stored_builder.carried bucketName member))
  have unshares := unshares_builder accepts.analysis accepts.assigned.calls accepts.assigned.exprs
  obtain ⟨checked, -, built⟩ := StageBuilder.built_build accepts.built
  obtain ⟨last, computed⟩ := StageBuilder.computed_of_built built unshares
    accepts.sound_builder regular unhidden checked orderBy (query.limit.map rowWindow)
  exact ⟨seconds, a, last, accepts.bucket, accepts.analyzed, accepts.plan ▸ computed⟩

theorem computed_risingLoad : ∃ plan, hosts.plan .risingLoad = .ok plan ∧
    ∃ seconds a last, bucketSeconds .risingLoad = .ok seconds ∧
      hosts.analyze .risingLoad ⟨.hosts, hosts.registry, seconds⟩ = .ok a ∧
      (hosts.unstaged .risingLoad seconds a).Computed hosts.dialect.aliasInWhere plan last := by
  obtain ⟨plan, ok⟩ := plan_risingLoad
  have dialect : hosts.dialect = Sql.Database.postgres.dialect := rfl
  exact ⟨plan, ok, computed_plan dialect (by decide) ok⟩

end Compiler

end Rollup
