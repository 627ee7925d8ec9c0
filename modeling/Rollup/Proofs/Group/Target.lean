import Rollup.Proofs.Group.Condition
import Rollup.Proofs.Group.Shared

/-! What references refer to is there.

The aggregates that are collected stay in their places while others are added behind them, so a
reference that had a target keeps it. Every aggregate is collected for a reference to it. Neither
conditions nor shared expressions refer to anything else than what there was before.
-/

set_option autoImplicit false

namespace Rollup

/-- How many things of each sort there are to refer to. -/
structure Extent where
  keys : Nat
  aggregates : Nat
  shared : Nat
  outputs : Nat

def Reference.IsWithin (extent : Extent) : Reference → Prop
  | .column _ => True
  | .key index => index < extent.keys
  | .aggregate index => index < extent.aggregates
  | .shared index => index < extent.shared
  | .output index => index < extent.outputs

def GroupExpr.IsWithin (extent : Extent) (e : GroupExpr) : Prop :=
  ∀ target ∈ e.references, target.IsWithin extent

def Extent.le (small large : Extent) : Prop :=
  small.keys ≤ large.keys ∧ small.aggregates ≤ large.aggregates ∧ small.shared ≤ large.shared ∧
    small.outputs ≤ large.outputs

theorem GroupExpr.IsWithin.mono {small large : Extent} {e : GroupExpr} (within : e.IsWithin small)
    (le : small.le large) : e.IsWithin large := by
  obtain ⟨keys, aggregates, shared, outputs⟩ := le
  intro target member
  have reached := within target member
  cases target with
  | column name => trivial
  | key index => exact Nat.lt_of_lt_of_le reached keys
  | aggregate index => exact Nat.lt_of_lt_of_le reached aggregates
  | shared index => exact Nat.lt_of_lt_of_le reached shared
  | output index => exact Nat.lt_of_lt_of_le reached outputs

/-! ## Collecting -/

def extentOf (keys outputs : Nat) (calls : List AggregateCall) : Extent :=
  ⟨keys, calls.length, 0, outputs⟩

/-- How the collected aggregates change by lifting something with given references. -/
structure Collected (P : AggregateCall → Prop) (first : List AggregateCall)
    (targets : List Reference) (last : List AggregateCall) : Prop where
  kept : first <+: last
  added : ∀ call ∈ last, call ∈ first ∨ P call
  /-- An aggregate is added for a reference. -/
  used : ∀ index, first.length ≤ index → index < last.length → .aggregate index ∈ targets

namespace Collected
variable {P : AggregateCall → Prop} {first middle last : List AggregateCall}
  {targets targets' : List Reference}

theorem refl (targets : List Reference) : Collected P first targets first :=
  ⟨List.prefix_rfl, fun _ => .inl, fun _ least below => absurd below (Nat.not_lt.mpr least)⟩

theorem append (one : Collected P first targets middle) (two : Collected P middle targets' last) :
    Collected P first (targets ++ targets') last where
  kept := one.kept.trans two.kept
  added call member := (two.added call member).elim (one.added call) .inr
  used index least below := by
    by_cases early : index < middle.length
    · exact List.mem_append_left _ (one.used index least early)
    · exact List.mem_append_right _ (two.used index (Nat.not_lt.mp early) below)

theorem length_le (collected : Collected P first targets last) : first.length ≤ last.length :=
  collected.kept.length_le

theorem all (collected : Collected P first targets last) (before : ∀ call ∈ first, P call) :
    ∀ call ∈ last, P call :=
  fun call member => (collected.added call member).elim (before call) id

end Collected

theorem collected_intern {P : AggregateCall → Prop} {call : AggregateCall}
    {first last : List AggregateCall} {index : Nat} (is : P call)
    (ok : (intern call).run first = .ok (index, last)) :
    Collected P first [.aggregate index] last ∧ index < last.length := by
  simp only [intern, StateT.run] at ok
  split at ok
  · rename_i place found
    cases ok
    exact ⟨.refl _, (List.findIdx?_eq_some_iff_getElem.mp found).1⟩
  · cases ok
    refine ⟨⟨List.prefix_append _ _, fun other member => ?_, fun index least below => ?_⟩, by simp⟩
    · rcases List.mem_append.mp member with member | member
      · exact .inl member
      · exact .inr (List.mem_singleton.mp member ▸ is)
    · have same : index = first.length := by
        rw [List.length_append, List.length_singleton] at below
        omega
      rw [same]
      exact List.mem_cons_self

/-- A lifted expression and the aggregates that are collected for it. -/
structure Gathers (P : AggregateCall → Prop) (keys outputs : Nat) (first : List AggregateCall)
    (x : GroupExpr) (last : List AggregateCall) : Prop where
  collected : Collected P first x.references last
  within : x.IsWithin (extentOf keys outputs last)

structure GathersEach (P : AggregateCall → Prop) (keys outputs : Nat) (first : List AggregateCall)
    (xs : List GroupExpr) (last : List AggregateCall) : Prop where
  collected : Collected P first (xs.flatMap GroupExpr.references) last
  within : ∀ x ∈ xs, x.IsWithin (extentOf keys outputs last)

section
variable {P : AggregateCall → Prop} {keys outputs : Nat} {first middle last : List AggregateCall}

theorem extentOf_le {calls calls' : List AggregateCall} (more : calls.length ≤ calls'.length) :
    (extentOf keys outputs calls).le (extentOf keys outputs calls') :=
  ⟨Nat.le_refl _, more, Nat.le_refl _, Nat.le_refl _⟩

theorem Gathers.nothing {x : GroupExpr} (within : x.IsWithin (extentOf keys outputs first)) :
    Gathers P keys outputs first x first := ⟨.refl _, within⟩

/-- What is collected for the operands of an operation is collected for it. -/
theorem Gathers.operation {x : GroupExpr} (plain : x.target? = none)
    (operands : GathersEach P keys outputs first x.children last) :
    Gathers P keys outputs first x last where
  collected := by
    rw [GroupExpr.references_eq plain]
    exact operands.collected
  within := by
    intro target member
    rw [GroupExpr.references_eq plain, List.mem_flatMap] at member
    obtain ⟨part, child, member⟩ := member
    exact operands.within part child target member

-- At least as many aggregates are collected before every item as before the first one.
theorem gathersEach_of_runs {α β : Type} {as : List α} {bs : List β} {base : Nat}
    (exprOf : β → GroupExpr) {step : α → List AggregateCall → β → List AggregateCall → Prop}
    (runs : Runs step as first bs last) (early : base ≤ first.length)
    (each : ∀ a ∈ as, ∀ b u v, base ≤ u.length → step a u b v →
      Gathers P keys outputs u (exprOf b) v) :
    GathersEach P keys outputs first (bs.map exprOf) last := by
  induction runs with
  | nil calls => exact ⟨.refl _, fun _ member => absurd member List.not_mem_nil⟩
  | cons head _ ih =>
    have one := each _ List.mem_cons_self _ _ _ early head
    have others := ih (Nat.le_trans early one.collected.length_le)
      fun a member => each a (List.mem_cons_of_mem _ member)
    refine ⟨one.collected.append others.collected, List.forall_mem_cons.mpr ⟨?_, others.within⟩⟩
    exact one.within.mono (extentOf_le others.collected.length_le)

theorem gathersItems_of_runs {es : List Expr} {xs : List GroupExpr} {base : Nat}
    {step : Expr → List AggregateCall → GroupExpr → List AggregateCall → Prop}
    (runs : Runs step es first xs last) (early : base ≤ first.length)
    (each : ∀ e ∈ es, ∀ x u v, base ≤ u.length → step e u x v → Gathers P keys outputs u x v) :
    GathersEach P keys outputs first xs last := by
  have items := gathersEach_of_runs id runs early each
  rw [List.map_id] at items
  exact items

end

/-- Lifting collects the aggregates that are called. -/
theorem gathers_lift {P : AggregateCall → Prop} {registry : Registry}
    {onColumn : String → Except CompileError GroupExpr} {keys outputs : Nat} {e : Expr}
    {x : GroupExpr} {first last : List AggregateCall}
    (columns : ∀ name x, onColumn name = .ok x → x.IsWithin ⟨keys, 0, 0, outputs⟩)
    (each : ∀ name args func, .call name args ∈ e.nodes → registry.aggregate? name = some func →
      P ⟨func, args.head?⟩)
    (ok : (lift registry onColumn e).run first = .ok (x, last)) :
    Gathers P keys outputs first x last := by
  refine lift_induction (R := fun e first x last =>
    (∀ name args func, .call name args ∈ e.nodes → registry.aggregate? name = some func →
      P ⟨func, args.head?⟩) → Gathers P keys outputs first x last)
    ?column ?aggregate ?operation ok each
  case column =>
    intro name x calls found _
    exact .nothing ((columns name x found).mono
      ⟨Nat.le_refl _, Nat.zero_le _, Nat.le_refl _, Nat.le_refl _⟩)
  case aggregate =>
    intro name args func index first last found interned each
    obtain ⟨collected, below⟩ :=
      collected_intern (P := P) (each name args func (by simp) found) interned
    exact ⟨collected, fun target member => List.mem_singleton.mp member ▸ below⟩
  case operation =>
    intro e x first last same runs each
    refine .operation same.target? (gathersItems_of_runs runs (Nat.zero_le _) ?_)
    intro part child y u v _ ih
    exact ih fun name args func member =>
      each name args func (Expr.nodes_subset_of_child child member)

theorem lt_of_keyOf? {keys : List GroupKey} {column : String} {index : Nat}
    (found : keyOf? keys column = some index) : index < keys.length :=
  (List.findIdx?_eq_some_iff_getElem.mp found).1

theorem gathers_liftOutput {P : AggregateCall → Prop} {registry : Registry} {keys : List GroupKey}
    {selected : Selected} {output : Output} {first last : List AggregateCall}
    (each : ∀ name args func, .call name args ∈ selected.expr.nodes →
      registry.aggregate? name = some func → P ⟨func, args.head?⟩)
    (ok : (liftOutput registry keys selected).run first = .ok (output, last)) :
    Gathers P keys.length 0 first output.expr last := by
  simp only [liftOutput, run_bind_eq_ok, run_pure_eq_ok] at ok
  obtain ⟨x, last, ok, rfl, rfl⟩ := ok
  refine gathers_lift (fun name x found => ?_) each ok
  obtain ⟨index, place, rfl⟩ := keyReference_eq_ok.mp found
  exact fun target member => List.mem_singleton.mp member ▸ lt_of_keyOf? place

/-! ## Conditions -/

namespace FilterScope
variable {P : AggregateCall → Prop} {scope : FilterScope} {first last : List AggregateCall}

def Calls (scope : FilterScope) (P : AggregateCall → Prop) : Prop :=
  ∀ e resolved, scope.resolver.resolve e = .ok resolved → ∀ name args func,
    .call name args ∈ resolved.nodes → scope.resolver.registry.aggregate? name = some func →
      P ⟨func, args.head?⟩

theorem gathers_liftResolved (each : scope.Calls P) {e : Expr} {x : GroupExpr} {keys outputs : Nat}
    (ok : (scope.liftResolved e).run first = .ok (x, last)) :
    Gathers P keys outputs first x last := by
  obtain ⟨resolved, found, ok⟩ := liftResolved_eq_ok.mp ok
  refine gathers_lift (fun name x given => ?_) (each e resolved found) ok
  cases given
  exact fun target member => List.mem_singleton.mp member ▸ trivial

def Reaches (scope : FilterScope) (base : Nat) : Prop :=
  ∀ output ∈ scope.outputs, output.expr.IsWithin ⟨scope.keys.length, base, 0, 0⟩

variable {base : Nat} (each : scope.Calls P) (reaches : scope.Reaches base)
include each reaches

theorem gathers_liftName {name : String} {x : GroupExpr} (early : base ≤ first.length)
    (ok : (scope.liftName name).run first = .ok (x, last)) :
    Gathers P scope.keys.length scope.outputs.length first x last := by
  cases named_liftName ok with
  | stored => exact .nothing fun target member => List.mem_singleton.mp member ▸ trivial
  | @output index output place found =>
    refine .nothing ?_
    unfold Output.asOperand
    split
    · have below := (List.getElem?_eq_some_iff.mp found).1
      exact fun target member => List.mem_singleton.mp member ▸ below
    · exact (reaches output (List.mem_of_getElem? found)).mono
        ⟨Nat.le_refl _, early, Nat.le_refl _, Nat.zero_le _⟩
  | derived defined ok => exact gathers_liftResolved each ok

theorem gathers_liftExpr {e : Expr} {x : GroupExpr} (early : base ≤ first.length)
    (ok : (scope.liftExpr e).run first = .ok (x, last)) :
    Gathers P scope.keys.length scope.outputs.length first x last := by
  -- The outputs were lifted before, so what they refer to stays collected all along.
  refine liftExpr_induction (R := fun e first x last => base ≤ first.length →
    Gathers P scope.keys.length scope.outputs.length first x last)
    ?column ?placeholder ?aggregate ?operation ok early
  case column => exact fun name x first last ok early => gathers_liftName each reaches early ok
  case placeholder =>
    exact fun name value calls _ => .nothing fun _ member => absurd member List.not_mem_nil
  case aggregate => exact fun name args func x first last found ok _ => gathers_liftResolved each ok
  case operation =>
    intro e x first last same _ runs early
    refine .operation same.target? (gathersItems_of_runs runs early ?_)
    exact fun part child y u v early ih => ih early

theorem gathers_liftCondition {conjunct : Expr} {condition : Condition}
    (early : base ≤ first.length)
    (ok : (scope.liftCondition conjunct).run first = .ok (condition, last)) :
    Gathers P scope.keys.length scope.outputs.length first condition.expr last := by
  simp only [liftCondition, run_bind_eq_ok] at ok
  obtain ⟨x, middle, lifted, ok⟩ := ok
  have gathers := gathers_liftExpr each reaches early lifted
  split at ok
  · obtain ⟨rfl, rfl⟩ := run_pure_eq_ok.mp ok
    exact gathers
  · simp only [run_bind_eq_ok] at ok
    obtain ⟨y, last, run, ok⟩ := ok
    obtain ⟨rfl, rfl⟩ := run_pure_eq_ok.mp ok
    obtain ⟨placed, rfl⟩ := run_lift_eq_ok.mp run
    obtain ⟨g, given, rfl⟩ := GroupExpr.substitute_of_substituteM placed
    refine ⟨⟨gathers.collected.kept, gathers.collected.added, fun index least below => ?_⟩,
      fun target member => ?_⟩
    · -- Aggregates stand for themselves, whatever the level of the condition is.
      have refers := gathers.collected.used index least below
      have same : g (.aggregate index) = .reference (.aggregate index) :=
        (Except.ok.inj (given _ refers)).symm
      exact GroupExpr.mem_references_substitute.mpr ⟨_, refers, by rw [same]; simp⟩
    · obtain ⟨origin, refers, member⟩ := GroupExpr.mem_references_substitute.mp member
      have replaced := given origin refers
      unfold groupReference at replaced
      split at replaced
      · split at replaced
        · rename_i index place
          rw [← Except.ok.inj replaced] at member
          exact List.mem_singleton.mp member ▸ lt_of_keyOf? place
        · cases replaced
      · rw [← Except.ok.inj replaced] at member
        exact List.mem_singleton.mp member ▸ gathers.within origin refers

end FilterScope

/-! ## Sharing -/

/-- What is shared is referred to where it is, since what an output is made of does not refer to
anything shared. -/
theorem SharedFrom.isWithin {found : List GroupExpr} {output output' : Output} {extent : Extent}
    (from_ : SharedFrom found output output') (plain : output.expr.isPlain)
    (within : output.expr.IsWithin extent) :
    output'.expr.IsWithin { extent with shared := found.length } := by
  have same : (output'.expr.unshare found).references = output.expr.references :=
    GroupExpr.references_of_same from_.same
  intro target member
  cases target with
  | shared index =>
    by_contra outside
    have absent : found[index]? = none := List.getElem?_eq_none (Nat.not_lt.mp outside)
    have left : definitionIn found (.shared index) = .reference (.shared index) := by
      rw [definitionIn, absent]
      rfl
    refine plain index (same ▸ ?_)
    exact GroupExpr.mem_references_substitute.mpr ⟨_, member, by rw [left]; simp⟩
  | column name => trivial
  | _ =>
    rcases from_.refers _ member with refers | ⟨index, is⟩
    · exact within _ refers
    · cases is

theorem SharedFrom.source {found : List GroupExpr} {output output' : Output} {target : Reference}
    (from_ : SharedFrom found output output') (refers : target ∈ output.expr.references) :
    target ∈ output'.expr.references ∨ ∃ index part, .shared index ∈ output'.expr.references ∧
      found[index]? = some part ∧ target ∈ part.references := by
  have same : (output'.expr.unshare found).references = output.expr.references :=
    GroupExpr.references_of_same from_.same
  rw [← same] at refers
  obtain ⟨origin, member, within⟩ := GroupExpr.mem_references_substitute.mp refers
  cases origin with
  | shared index =>
    rw [definitionIn] at within
    cases place : found[index]? with
    | none =>
      rw [place, Option.getD_none] at within
      obtain rfl := List.mem_singleton.mp within
      exact .inl member
    | some part =>
      rw [place, Option.getD_some] at within
      exact .inr ⟨index, part, member, place, within⟩
  | _ =>
    obtain rfl := List.mem_singleton.mp within
    exact .inl member

end Rollup
