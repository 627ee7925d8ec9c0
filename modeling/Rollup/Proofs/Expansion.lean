import Rollup.Proofs.Compile.Derived
import Rollup.Proofs.Compiler

/-! Queries with definitions in the place of derived columns.

A query is compiled alike whether its selectors name derived columns or have their definitions
there, as long as the columns of the result keep their names. Only a selector that has no name for
its column is told by its own text.
-/

set_option autoImplicit false

namespace Rollup

/-- A selector with definitions in the place of some names, and the same name for its column. -/
structure Selector.Expanded (schema : Schema) (selector expanded : Selector) : Prop where
  name : expanded.outputName? = selector.outputName?
  expr : Relation.ReflTransGen (Expr.Expands schema) selector.expr expanded.expr

theorem Expr.Expands.columnName? {schema : Schema} {e e' : Expr} (expands : Expands schema e e')
    (other : e.columnName? = none) : e'.columnName? = none := by
  cases expands with
  | column => cases other
  | _ => rfl

theorem Selector.expanded_label {schema : Schema} {selector : Selector} {e : Expr}
    (expanded : Relation.ReflTransGen (Expr.Expands schema) selector.expr e) :
    selector.Expanded schema ⟨e, selector.outputName?⟩ where
  expr := expanded
  name := by
    cases named : selector.outputName? with
    | some name => rfl
    | none =>
      have other : selector.expr.columnName? = none := by
        obtain ⟨original, label⟩ := selector
        cases label <;> cases original <;> first | rfl | cases named
      have other : e.columnName? = none := by
        induction expanded with
        | refl => exact other
        | tail _ expands ih => exact expands.columnName? ih
      cases e <;> first | rfl | cases other

namespace Compiler

/-- Two computations have the same result, or both refuse the same selector because it has no name
for its column, each by the text that the selector has there. -/
def AlikeUpToText {α : Type} (selectors : List (Selector × Selector))
    (x y : Except CompileError α) : Prop :=
  y = x ∨ ∃ pair ∈ selectors, pair.1.outputName? = none ∧
    x = .error (.ambiguousOutputName pair.1.expr.render) ∧
    y = .error (.ambiguousOutputName pair.2.expr.render)

namespace AlikeUpToText
variable {α β : Type} {selectors more : List (Selector × Selector)} {x y : Except CompileError α}

protected theorem refl (x : Except CompileError α) : AlikeUpToText selectors x x := .inl rfl

theorem mono (alike : AlikeUpToText selectors x y) (among : selectors ⊆ more) :
    AlikeUpToText more x y :=
  alike.imp_right fun ⟨pair, listed, refused⟩ => ⟨pair, among listed, refused⟩

theorem bind {f g : α → Except CompileError β} (alike : AlikeUpToText selectors x y)
    (next : ∀ a, AlikeUpToText selectors (f a) (g a)) :
    AlikeUpToText selectors (x >>= f) (y >>= g) := by
  rcases alike with rfl | ⟨pair, listed, unnamed, rfl, rfl⟩
  · cases y with
    | error fault => exact .refl _
    | ok a => exact next a
  · exact .inr ⟨pair, listed, unnamed, rfl, rfl⟩

end AlikeUpToText

section
variable {resolver : Resolver} (acyclic : resolver.schema.Acyclic)
include acyclic

theorem select_expanded {selector expanded : Selector}
    (alike : selector.Expanded resolver.schema expanded) :
    AlikeUpToText [(selector, expanded)] (select resolver selector)
      (select resolver expanded) := by
  rw [select, select, alike.name]
  cases named : selector.outputName? with
  | none => exact .inr ⟨(selector, expanded), List.mem_cons_self, named, rfl, rfl⟩
  | some name => rw [Resolver.resolve_expanded acyclic alike.expr]; exact .refl _

theorem selectEach_expanded {selectors expanded : List Selector}
    (each : List.Forall₂ (Selector.Expanded resolver.schema) selectors expanded) :
    AlikeUpToText (selectors.zip expanded) (selectors.mapM (select resolver))
      (expanded.mapM (select resolver)) := by
  induction each with
  | nil => exact .refl _
  | cons first _ ih =>
    rw [List.mapM_cons, List.mapM_cons, List.zip_cons_cons]
    refine ((select_expanded acyclic first).mono (by simp)).bind fun selected => ?_
    exact (ih.mono (List.subset_cons_self _ _)).bind fun _ => .refl _

end

section
variable {c : Compiler} {query : Query} {selectors : List Selector}
  (acyclic : c.schema.Acyclic)
  (each : List.Forall₂ (Selector.Expanded c.schema) query.selectors selectors)
include acyclic each

theorem analyze_expanded (seconds : Option Int) :
    AlikeUpToText (query.selectors.zip selectors)
      (c.analyze query ⟨c.schema, c.registry, seconds⟩)
      (c.analyze { query with selectors } ⟨c.schema, c.registry, seconds⟩) :=
  (selectEach_expanded acyclic each).bind fun _ => .refl _

theorem planWithColumns_expanded :
    AlikeUpToText (query.selectors.zip selectors) (c.planWithColumns query)
      (c.planWithColumns { query with selectors }) := by
  have empty : selectors.isEmpty = query.selectors.isEmpty := by
    generalize query.selectors = original at each
    cases each <;> rfl
  have time : c.timeColumn { query with selectors } = c.timeColumn query := rfl
  unfold planWithColumns
  dsimp only
  rw [empty, time]
  split
  · exact .refl _
  · split
    · exact .refl _
    · exact (AlikeUpToText.refl _).bind fun seconds =>
        (analyze_expanded acyclic each seconds).bind fun _ => .refl _

end

/-- In a schema that is accepted, a query is compiled alike with its selectors expanded in any way
that keeps the names of the columns; resolution does not see the difference, nor is there one after
it. -/
theorem compile_expanded {c : Compiler} {query : Query} {selectors : List Selector}
    {registry : Registry} (valid : c.schema.validate registry = .ok ())
    (each : List.Forall₂ (Selector.Expanded c.schema) query.selectors selectors) (pretty : Bool) :
    AlikeUpToText (query.selectors.zip selectors) (c.compile query pretty)
        (c.compile { query with selectors } pretty) ∧
      (∀ r : Resolver, r.schema = c.schema → ∀ e e' : Expr,
        Relation.ReflTransGen (Expr.Expands c.schema) e e' → r.resolve e' = r.resolve e) ∧
      ∀ (r : Resolver) (e x : Expr), r.resolve e = .ok x → r.resolve x = .ok x := by
  have acyclic := Schema.acyclic_of_validate valid
  refine ⟨?_, fun r same e e' expanded => ?_, fun r e x => Resolver.resolve_resolved⟩
  · exact (planWithColumns_expanded acyclic each).bind fun _ => .refl _
  · rw [← same] at acyclic expanded
    exact Resolver.resolve_expanded acyclic expanded

end Compiler

/-! ## A schema with derived columns -/

def DerivedColumn.load : DerivedColumn :=
  ⟨"load", "cpu * 2", .binary .mul (.column "cpu") (.literal (.int 2))⟩

def DerivedColumn.pressure : DerivedColumn :=
  ⟨"pressure", "load + mem", .binary .add (.column "load") (.column "mem")⟩

def Compiler.loadedHosts : Compiler :=
  { hosts with schema := { Schema.hosts with derived := [.load, .pressure] } }

theorem Schema.validate_loadedHosts : Compiler.loadedHosts.schema.validate .builtin = .ok () := by
  obtain ⟨_, ok⟩ : ∃ value, Compiler.loadedHosts.schema.validate .builtin = .ok value :=
    isSome_toOption.mp (by decide +kernel)
  exact ok

theorem Expr.expanded_pressure :
    Relation.ReflTransGen (Expr.Expands Compiler.loadedHosts.schema)
      (.call "sum" [.column "pressure"])
      (.call "sum" [.binary .add DerivedColumn.load.expr (.column "mem")]) := by
  have pressure : Expands Compiler.loadedHosts.schema (.call "sum" ([] ++ [.column "pressure"]))
      (.call "sum" ([] ++ [DerivedColumn.pressure.expr])) := .arg (.column rfl)
  have load : Expands Compiler.loadedHosts.schema
      (.call "sum" ([] ++ [.binary .add (.column "load") (.column "mem")]))
      (.call "sum" ([] ++ [.binary .add DerivedColumn.load.expr (.column "mem")])) :=
    .arg (.left (.column rfl))
  exact .tail (.single pressure) load

def Query.pressure : Query where
  selectors := [⟨.column "host", none⟩, ⟨.call "sum" [.column "pressure"], some "total"⟩]

namespace Compiler

theorem compile_pressure :
    ∃ selectors, (selectors.map (·.label) = [some "host", some "total"] ∧
      (loadedHosts.compile { Query.pressure with selectors } true).toOption.isSome = true) ∧
      AlikeUpToText (Query.pressure.selectors.zip selectors) (loadedHosts.compile .pressure true)
        (loadedHosts.compile { Query.pressure with selectors } true) ∧
      (∀ r : Resolver, r.schema = loadedHosts.schema → ∀ e e' : Expr,
        Relation.ReflTransGen (Expr.Expands loadedHosts.schema) e e' →
          r.resolve e' = r.resolve e) ∧
      ∀ (r : Resolver) (e x : Expr), r.resolve e = .ok x → r.resolve x = .ok x := by
  let total : Expr := .call "sum" [.binary .add DerivedColumn.load.expr (.column "mem")]
  refine ⟨[⟨.column "host", some "host"⟩, ⟨total, some "total"⟩],
    ⟨rfl, by decide +kernel⟩, ?_⟩
  have each : List.Forall₂ (Selector.Expanded loadedHosts.schema) Query.pressure.selectors
      [⟨.column "host", some "host"⟩, ⟨total, some "total"⟩] :=
    .cons (Selector.expanded_label .refl)
      (.cons (Selector.expanded_label Expr.expanded_pressure) .nil)
  exact @compile_expanded loadedHosts .pressure _ _ Schema.validate_loadedHosts each true

/-- Without a name for its column a selector is refused by its own text, which is another one when
a name in it is expanded. -/
theorem compile_unnamedLoad :
    Expr.Expands loadedHosts.schema (.unary .neg (.column "load"))
        (.unary .neg DerivedColumn.load.expr) ∧
      loadedHosts.compile { selectors := [⟨.unary .neg (.column "load"), none⟩] } true =
        .error (.ambiguousOutputName "-load") ∧
      loadedHosts.compile { selectors := [⟨.unary .neg DerivedColumn.load.expr, none⟩] } true =
        .error (.ambiguousOutputName "-(cpu * 2)") :=
  ⟨.operand (.column rfl), rfl, rfl⟩

end Compiler

end Rollup
