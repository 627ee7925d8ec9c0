import Rollup.Proofs.Compile.Derived
import Rollup.Proofs.Schema.Document

/-! Validation and resolution find the same cycles.

Validation looks for cycles among the names that definitions have, and resolution meets one when it
opens a definition inside of itself. In a validated schema resolution never does, and no definition
has a name or a function that is unknown. Where validation finds a cycle, opening one of its columns
opens the next one, so resolution does not come to an end but by an error.
-/

set_option autoImplicit false

namespace Rollup

/-- The error is no cycle, and where it is an unknown name, the name has a property. -/
def CompileError.About (Column Function : String → Prop) : CompileError → Prop
  | .derivedCycle _ => False
  | .unknownColumn name => Column name
  | .unknownFunction name => Function name
  | _ => True

theorem CompileError.About.imp {Column Column' Function Function' : String → Prop}
    {fault : CompileError} (about : fault.About Column Function)
    (columns : ∀ name, Column name → Column' name)
    (functions : ∀ name, Function name → Function' name) : fault.About Column' Function' := by
  cases fault with
  | derivedCycle names => exact about
  | unknownColumn name => exact columns name about
  | unknownFunction name => exact functions name about
  | _ => trivial

namespace Schema
variable {schema : Schema} {registry : Registry} {column : DerivedColumn}

structure Knows (schema : Schema) (registry : Registry) (column : DerivedColumn) : Prop where
  columns : ∀ name ∈ column.expr.columns, schema.column? name ≠ none
  calls : ∀ name ∈ column.expr.calls, registry.get? name ≠ none

theorem knows_of_checkReferences (ok : schema.checkReferences registry column = .ok ()) :
    schema.Knows registry column := by
  rw [checkReferences] at ok
  split at ok
  · cases ok
  · rename_i columns
    split at ok
    · cases ok
    · rename_i calls
      exact ⟨by simpa using columns, by simpa using calls⟩

theorem knows_of_validate (valid : schema.validate registry = .ok ())
    (listed : column ∈ schema.derived) : schema.Knows registry column := by
  rw [validate] at valid
  split at valid
  · cases valid
  · rename_i checked
    exact knows_of_checkReferences (forM_eq_ok.mp checked column listed)

theorem connects_of_validate {cycle : List String}
    (found : schema.validate registry = .error (.derivedCycle cycle)) :
    cycle ≠ [] ∧ ∀ name ∈ cycle, name ∈ schema.derivedNames ∧ schema.Connects name name := by
  have listed : cycle ∈ schema.cycles := by
    rw [validate] at found
    split at found
    · rename_i fault failed
      cases found
      obtain ⟨column, -, failed⟩ := forM_eq_error failed
      rw [checkReferences] at failed
      split at failed
      · cases failed
      · split at failed <;> cases failed
    · split at found
      · cases found
      · rename_i same
        cases found
        rw [same]
        exact List.mem_cons_self
  obtain ⟨first, derived, own⟩ := mem_cycles.mp listed
  rw [cycleOf?] at own
  split at own
  · rename_i leads
    cases own
    constructor
    · exact List.ne_nil_of_mem (List.mem_filter.mpr ⟨derived, by simp [leads]⟩)
    · intro name member
      obtain ⟨derived, both⟩ := List.mem_filter.mp member
      rw [Bool.and_eq_true, leadsTo_iff, leadsTo_iff] at both
      exact ⟨derived, both.2.trans both.1⟩
  · cases own

end Schema

namespace Resolver
variable {r : Resolver} {depth : Nat} {stack : List String} {e x : Expr} {name : String}

/-! ## Validated schemas -/

theorem failsOnly_inlineWithin (acyclic : r.schema.Acyclic)
    (known : ∀ column ∈ r.schema.derived, r.schema.Knows r.registry column)
    (room : r.schema.HasRoom depth stack e) :
    FailsOnly (CompileError.About (fun name => name ∈ e.columns ∧ r.schema.column? name = none)
      fun _ => False) (r.inlineWithin depth stack e) := by
  induction depth using Nat.strongRecOn generalizing stack e with
  | _ depth ih =>
    rw [inlineWithin_eq]
    refine Expr.failsOnly_transformM (fun node member is => ?_) fun node other => ?_
    · cases node with
      | column name =>
        have named := Expr.mem_columns.mpr member
        cases found : r.schema.column? name with
        | none =>
          simp only [inlineNode, found]
          exact .error ⟨named, found⟩
        | some column =>
          cases column with
          | derived column =>
            obtain ⟨fresh, less, rfl, further⟩ := room.definition acyclic found named
            rw [inlineNode_derived found fresh]
            refine (ih less (Nat.lt_succ_self _) further).imp fun fault about => ?_
            -- What the definition names is known, whatever it is.
            have listed := List.mem_of_find?_eq_some (Schema.derived?_of_column? found)
            refine about.imp (fun other unknown => ?_) fun _ => id
            exact absurd unknown.2 ((known column listed).columns other unknown.1)
          | _ =>
            simp only [inlineNode, found]
            exact .ok _
      | placeholder name =>
        refine FailsOnly.map _ ?_
        rw [placeholderValue]
        split
        · exact .error trivial
        · split
          · exact .ok _
          · exact .error trivial
      | _ => cases is
    · rw [inlineNode_other other]
      exact .ok _

theorem called_of_inlineWithin (ok : r.inlineWithin depth stack e = .ok x)
    (called : name ∈ x.calls) :
    name ∈ e.calls ∨ ∃ column ∈ r.schema.derived, name ∈ column.expr.calls := by
  induction depth using Nat.strongRecOn generalizing stack e x with
  | _ depth ih =>
    rw [inlineWithin_eq] at ok
    obtain ⟨args, member⟩ := Expr.mem_calls.mp called
    rcases Expr.origin_transformM (fun _ => inlineNode_other) ok member with
      ⟨node, -, named, y, replaced, member⟩ | ⟨-, origin, within, same⟩
    · cases node with
      | column column =>
        simp only [inlineNode] at replaced
        split at replaced
        · cases replaced
        · rename_i column found
          split at replaced
          · cases replaced
          · split at replaced
            · cases replaced
            · have listed := List.mem_of_find?_eq_some (Schema.derived?_of_column? found)
              have called := Expr.mem_calls.mpr ⟨args, member⟩
              refine (ih _ (Nat.lt_succ_self _) replaced called).elim (fun called => ?_) .inr
              exact .inr ⟨column, listed, called⟩
        · cases replaced
          cases Expr.mem_nodes_column.mp member
      | placeholder placeholder =>
        obtain ⟨value, -, rfl⟩ := map_eq_ok.mp replaced
        cases Expr.mem_nodes_literal.mp member
      | _ => cases named
    · refine .inl ?_
      cases origin with
      | call function others =>
        cases same
        exact Expr.mem_calls.mpr ⟨others, within⟩
      | _ => cases same

/-- In a validated schema resolution meets no cycle, and the names that it does not know are those
of the expression. -/
theorem failsOnly_resolve (valid : r.schema.validate r.registry = .ok ()) :
    FailsOnly (CompileError.About (· ∈ e.columns) (· ∈ e.calls)) (r.resolve e) := by
  have acyclic := Schema.acyclic_of_validate valid
  have known : ∀ column ∈ r.schema.derived, r.schema.Knows r.registry column := fun _ =>
    Schema.knows_of_validate valid
  have inlines := failsOnly_inlineWithin acyclic known (r.schema.hasRoom_derived (e := e))
  refine .bind_of_ok (inlines.imp fun _ about => about.imp (fun _ => And.left) fun _ => False.elim)
    fun x inlined => ?_
  refine (failsOnly_checkCalls (fun name called unknown => ?_) (fun _ _ _ _ => trivial)
    fun _ _ => trivial).bind fun _ => .ok x
  refine (called_of_inlineWithin inlined called).resolve_right fun ⟨column, listed, calls⟩ => ?_
  exact (known column listed).calls name calls unknown

/-! ## Cycles -/

/-- Opening a definition opens the definitions in it, so one that leads to itself is never opened
to the end. -/
theorem not_connects_of_inlineWithin (distinct : r.schema.names.Nodup)
    (ok : r.inlineWithin depth stack e = .ok x) (named : name ∈ e.columns)
    (derived : name ∈ r.schema.derivedNames) : ¬r.schema.Connects name name := by
  induction depth using Nat.strongRecOn generalizing stack e x name with
  | _ depth ih =>
    intro cycle
    obtain ⟨column, found⟩ := Schema.column?_derived distinct derived
    rw [inlineWithin_eq] at ok
    obtain ⟨y, opened⟩ := Expr.replaced_of_transformM ok (Expr.mem_columns.mp named) rfl
    simp only [inlineNode, found] at opened
    split at opened
    · cases opened
    split at opened
    · cases opened
    -- The next name on the cycle is in the definition, and is connected with itself as well.
    obtain ⟨next, refers, back⟩ := Relation.TransGen.head'_iff.mp cycle
    obtain ⟨other, same, within, derived'⟩ := Schema.mem_references.mp refers
    rw [Schema.derived?_of_column? found] at same
    cases same
    exact ih _ (Nat.lt_succ_self _) opened within derived'
      (Relation.TransGen.tail'_iff.mpr ⟨name, back, refers⟩)

theorem resolve_ne_ok (distinct : r.schema.names.Nodup) (derived : name ∈ r.schema.derivedNames)
    (cycle : r.schema.Connects name name) : r.resolve (.column name) ≠ .ok x := by
  intro ok
  simp only [resolve, bind_eq_ok] at ok
  obtain ⟨y, inlined, -⟩ := ok
  exact not_connects_of_inlineWithin distinct inlined (by simp) derived cycle

/-- Validation and resolution agree on cycles. Where a schema is validated, resolution fails neither
by a cycle nor by a name that the expression does not have itself. Where validation finds a cycle,
none of its columns can be resolved. -/
theorem cycles_agree {text : String} {schema : Schema} (loaded : Schema.parse text = .ok schema)
    (registry : Registry) :
    (schema.validate registry = .ok () → ∀ (seconds : Option Int) (e : Expr),
      FailsOnly (CompileError.About (· ∈ e.columns) (· ∈ e.calls))
        (resolve ⟨schema, registry, seconds⟩ e)) ∧
    ∀ cycle, schema.validate registry = .error (.derivedCycle cycle) →
      cycle ≠ [] ∧ ∀ (seconds : Option Int), ∀ name ∈ cycle, ∀ x,
        resolve ⟨schema, registry, seconds⟩ (.column name) ≠ .ok x := by
  refine ⟨fun valid seconds e => failsOnly_resolve valid, fun cycle found => ?_⟩
  obtain ⟨some_, each⟩ := Schema.connects_of_validate found
  refine ⟨some_, fun seconds name listed x => ?_⟩
  obtain ⟨derived, connects⟩ := each name listed
  exact resolve_ne_ok (r := ⟨schema, registry, seconds⟩) (Schema.nodup_names_parse loaded) derived
    connects

def hostsText (load : String) : String :=
  "name = \"hosts\"\n[[metrics]]\nname = \"cpu\"\n[[derived]]\nname = \"load\"\nexpression = \"" ++
    load ++ "\"\n[[derived]]\nname = \"rate\"\nexpression = \"load / 60\"\n"

theorem cycles_agree_hosts :
    (∃ schema, Schema.parse (hostsText "cpu + 1") = .ok schema ∧ ∀ e,
      FailsOnly (CompileError.About (· ∈ e.columns) (· ∈ e.calls))
        (resolve ⟨schema, .builtin, some 60⟩ e)) ∧
    ∃ schema, Schema.parse (hostsText "rate + cpu") = .ok schema ∧
      schema.validate .builtin = .error (.derivedCycle ["load", "rate"]) ∧
      ∀ x, resolve ⟨schema, .builtin, some 60⟩ (.column "rate") ≠ .ok x := by
  constructor
  · have valid : (Schema.parse (hostsText "cpu + 1")).bind (·.validate .builtin) = .ok () := by
      decide +kernel
    obtain ⟨schema, loaded, valid⟩ := bind_eq_ok.mp valid
    exact ⟨schema, loaded, (cycles_agree loaded .builtin).1 valid (some 60)⟩
  · have cyclic : (Schema.parse (hostsText "rate + cpu")).toOption.map (·.validate .builtin) =
        some (.error (.derivedCycle ["load", "rate"])) := by
      decide +kernel
    obtain ⟨schema, loaded, cyclic⟩ := Option.map_eq_some_iff.mp cyclic
    have loaded := toOption_eq_some.mp loaded
    have never := ((cycles_agree loaded .builtin).2 _ cyclic).2 (some 60) "rate" (by simp)
    exact ⟨schema, loaded, cyclic, never⟩

end Resolver

end Rollup
