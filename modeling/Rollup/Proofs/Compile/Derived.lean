import Mathlib.Data.List.Perm.Subperm
import Rollup.Compiler
import Rollup.Proofs.Compile.Resolver
import Rollup.Proofs.Schema.Cycle

/-! Definitions in the place of derived columns.

In a schema without cycles, what a derived column is replaced by does not depend on the columns
that are being defined, nor on how many more can be. So it makes no difference for the resolved
expression whether a name is there or its definition, and definitions can be put in the place of
names one after the other, in any order.
-/

set_option autoImplicit false

namespace Rollup

namespace Expr
variable {ε : Type} {f g : Expr → Except ε Expr}

theorem transformM_congr (other : ∀ e : Expr, e.isName = false → f e = g e) {e : Expr}
    (names : ∀ node ∈ e.nodes, node.isName = true → f node = g node) :
    e.transformM f = e.transformM g := by
  induction e using byChildren with
  | step e ih =>
    have parts : e.children.mapM (transformM f) = e.children.mapM (transformM g) :=
      mapM_congr_of_mem fun part child => ih part child fun node member =>
        names node (nodes_subset_of_child child member)
    have whole : ∀ es, f (e.withOperands es) = g (e.withOperands es) := by
      intro es
      cases is : e.isName with
      | true =>
        rw [withOperands_of_isName is]
        exact names e (self_mem_nodes e) is
      | false => exact other _ ((isName_withOperands e es).trans is)
    rw [transformM_eq, transformM_eq, parts]
    exact congrArg _ (funext whole)

theorem transformM_ok {e : Expr} (kept : ∀ e : Expr, f e = .ok e) : e.transformM f = .ok e := by
  induction e using byChildren with
  | step e ih =>
    have parts : e.children.mapM (transformM f) = .ok e.children :=
      mapM_eq_ok.mpr (List.forall₂_same.mpr ih)
    rw [transformM_eq, parts]
    exact (congrArg f (withOperands_children e)).trans (kept e)

/-! ## Expansion -/

/-- One name of a derived column is replaced by the definition of the column. -/
inductive Expands (schema : Schema) : Expr → Expr → Prop
  | column {name : String} {column : DerivedColumn} :
    schema.column? name = some (.derived column) → Expands schema (.column name) column.expr
  | left {op : BinaryOp} {left left' right : Expr} :
    Expands schema left left' → Expands schema (.binary op left right) (.binary op left' right)
  | right {op : BinaryOp} {left right right' : Expr} :
    Expands schema right right' → Expands schema (.binary op left right) (.binary op left right')
  | operand {op : UnaryOp} {operand operand' : Expr} :
    Expands schema operand operand' → Expands schema (.unary op operand) (.unary op operand')
  | tested {operand operand' : Expr} {items : List Expr} {negated : Bool} :
    Expands schema operand operand' →
      Expands schema (.inList operand items negated) (.inList operand' items negated)
  | item {operand item item' : Expr} {before after : List Expr} {negated : Bool} :
    Expands schema item item' →
      Expands schema (.inList operand (before ++ item :: after) negated)
        (.inList operand (before ++ item' :: after) negated)
  | arg {name : String} {arg arg' : Expr} {before after : List Expr} :
    Expands schema arg arg' →
      Expands schema (.call name (before ++ arg :: after)) (.call name (before ++ arg' :: after))

theorem transformItemsM_replace {before after : List Expr} {e e' : Expr}
    (same : e'.transformM f = e.transformM f) :
    transformItemsM f (before ++ e' :: after) = transformItemsM f (before ++ e :: after) := by
  induction before with
  | nil => rw [List.nil_append, List.nil_append, transformItemsM, transformItemsM, same]
  | cons first rest ih =>
    rw [List.cons_append, List.cons_append, transformItemsM, transformItemsM, ih]

/-- A definition is rebuilt in the place of its name as it is on its own, if it is so when the
name is the whole expression. -/
theorem Expands.transformM_eq {schema : Schema} {e e' : Expr} (expands : Expands schema e e')
    (transparent : ∀ {name column}, schema.column? name = some (.derived column) →
      f (.column name) = column.expr.transformM f) : e'.transformM f = e.transformM f := by
  induction expands with
  | column found => exact (transparent found).symm
  | left _ ih => simp only [transformM, ih]
  | right _ ih => simp only [transformM, ih]
  | operand _ ih => simp only [transformM, ih]
  | tested _ ih => simp only [transformM, ih]
  | item _ ih => simp only [transformM, transformItemsM_replace ih]
  | arg _ ih => simp only [transformM, transformItemsM_replace ih]

end Expr

/-! ## Definitions -/

namespace Schema
variable {schema : Schema} {depth : Nat} {stack : List String} {e : Expr} {name : String}
  {column : DerivedColumn}

theorem derived?_of_column? (found : schema.column? name = some (.derived column)) :
    schema.derived? name = some column := by
  rw [column?] at found
  split at found
  · cases found
  · split at found
    · cases found
    · split at found
      · cases found
      · simpa using found

def Leads (schema : Schema) (e : Expr) (last : String) : Prop :=
  ∃ first ∈ e.columns, first ∈ schema.derivedNames ∧
    Relation.ReflTransGen schema.Refers first last

/-- There is room to define all derived columns that an expression leads to, and none of them is
being defined. -/
structure HasRoom (schema : Schema) (depth : Nat) (stack : List String) (e : Expr) : Prop where
  depth : ∀ names : List String, names.Nodup → (∀ name ∈ names, schema.Leads e name) →
    names.length ≤ depth
  stack : ∀ name ∈ stack, ¬schema.Leads e name

theorem mem_derivedNames_of_leads (leads : schema.Leads e name) : name ∈ schema.derivedNames := by
  obtain ⟨first, -, derived, connects⟩ := leads
  cases connects with
  | refl => exact derived
  | tail _ refers => exact references_subset _ refers

theorem hasRoom_derived : schema.HasRoom schema.derived.length [] e where
  depth names distinct leads := by
    have within : names ⊆ schema.derivedNames := fun name listed =>
      mem_derivedNames_of_leads (leads name listed)
    simpa [derivedNames] using (distinct.subperm within).length_le
  stack _ listed := absurd listed List.not_mem_nil

theorem leads_of_column? (found : schema.column? name = some (.derived column))
    (named : name ∈ e.columns) : schema.Leads e name :=
  ⟨name, named, mem_derivedNames_of_derived? (derived?_of_column? found), .refl⟩

theorem connects_of_leads (found : schema.column? name = some (.derived column)) {last : String}
    (leads : schema.Leads column.expr last) : schema.Connects name last := by
  obtain ⟨first, named, derived, connects⟩ := leads
  exact .head' (mem_references.mpr ⟨column, derived?_of_column? found, named, derived⟩) connects

theorem HasRoom.definition (acyclic : schema.Acyclic) (room : schema.HasRoom depth stack e)
    (found : schema.column? name = some (.derived column)) (named : name ∈ e.columns) :
    name ∉ stack ∧ ∃ less, depth = less + 1 ∧
      schema.HasRoom less (stack ++ [name]) column.expr := by
  have here := leads_of_column? found named
  have further : ∀ {last}, schema.Leads column.expr last → schema.Leads e last := fun leads =>
    ⟨name, named, mem_derivedNames_of_leads here, (connects_of_leads found leads).to_reflTransGen⟩
  have apart : ¬schema.Leads column.expr name := fun leads =>
    acyclic name (connects_of_leads found leads)
  have positive : [name].length ≤ depth := room.depth [name] (by simp) (by simpa)
  refine ⟨fun listed => room.stack name listed here, depth - 1, ?_, fun names distinct leads => ?_,
    fun other listed leads => ?_⟩
  · simp only [List.length_singleton] at positive
    omega
  · have fresh : name ∉ names := fun listed => apart (leads name listed)
    have more := room.depth (name :: names) (List.nodup_cons.mpr ⟨fresh, distinct⟩) <| by
      intro other listed
      rcases List.mem_cons.mp listed with rfl | listed
      · exact here
      · exact further (leads other listed)
    simp only [List.length_cons] at more
    omega
  · rcases List.mem_append.mp listed with listed | listed
    · exact room.stack other listed (further leads)
    · obtain rfl := List.mem_singleton.mp listed
      exact apart leads

end Schema

/-! ## Inlining -/

namespace Resolver
variable {r : Resolver} {depth depth' : Nat} {stack stack' : List String} {e e' x : Expr}
  {name : String} {column : DerivedColumn}

theorem inlineNode_derived (found : r.schema.column? name = some (.derived column))
    (fresh : name ∉ stack) : r.inlineNode (depth + 1) stack (.column name) =
      r.inlineWithin depth (stack ++ [name]) column.expr := by
  rw [inlineNode, found]
  exact if_neg (by simpa using fresh)

/-- Where there is room for all definitions, it does not matter how much. -/
theorem inlineWithin_congr (acyclic : r.schema.Acyclic) (room : r.schema.HasRoom depth stack e)
    (room' : r.schema.HasRoom depth' stack' e) :
    r.inlineWithin depth stack e = r.inlineWithin depth' stack' e := by
  induction depth using Nat.strongRecOn generalizing depth' stack stack' e with
  | _ depth ih =>
    rw [inlineWithin_eq, inlineWithin_eq]
    refine Expr.transformM_congr (fun node other => ?_) fun node member is => ?_
    · rw [inlineNode_other other, inlineNode_other other]
    cases node with
    | column name =>
      have named := Expr.mem_columns.mpr member
      cases found : r.schema.column? name with
      | none => simp only [inlineNode, found]
      | some column =>
        cases column with
        | derived column =>
          obtain ⟨fresh, less, rfl, further⟩ := room.definition acyclic found named
          obtain ⟨fresh', less', rfl, further'⟩ := room'.definition acyclic found named
          rw [inlineNode_derived found fresh, inlineNode_derived found fresh']
          exact ih less (Nat.lt_succ_self _) further further'
        | _ => simp only [inlineNode, found]
    | placeholder name => rfl
    | _ => cases is

theorem inline_column (acyclic : r.schema.Acyclic)
    (found : r.schema.column? name = some (.derived column)) :
    r.inline (.column name) = r.inline column.expr := by
  obtain ⟨fresh, less, same, room⟩ := (r.schema.hasRoom_derived (e := .column name)).definition
    acyclic found (by simp)
  rw [inline, inlineWithin_eq, Expr.transformM, same, inlineNode_derived found fresh, inline]
  exact inlineWithin_congr acyclic room r.schema.hasRoom_derived

theorem resolve_expands (acyclic : r.schema.Acyclic) (expands : Expr.Expands r.schema e e') :
    r.resolve e' = r.resolve e := by
  have same : r.inline e' = r.inline e := by
    rw [inline, inline, inlineWithin_eq, inlineWithin_eq]
    refine expands.transformM_eq fun {name column} found => ?_
    have opened := inline_column acyclic found
    rw [inline, inline, inlineWithin_eq, inlineWithin_eq] at opened
    exact opened
  rw [resolve, resolve, same]

/-- Definitions can be put in the place of names before resolution, one by one and in any order. -/
theorem resolve_expanded (acyclic : r.schema.Acyclic)
    (expanded : Relation.ReflTransGen (Expr.Expands r.schema) e e') :
    r.resolve e' = r.resolve e := by
  induction expanded with
  | refl => rfl
  | tail _ expands ih => exact (resolve_expands acyclic expands).trans ih

theorem inline_stored (names : ∀ node ∈ e.nodes, node.isName = true →
    ∃ name, node = .column name ∧ r.schema.isStored name = true) : r.inline e = .ok e := by
  rw [inline, inlineWithin_eq]
  rw [Expr.transformM_congr (g := .ok) (fun node other => inlineNode_other other)
    fun node member is => ?_]
  · exact Expr.transformM_ok fun _ => rfl
  · obtain ⟨name, rfl, stored⟩ := names node member is
    exact inlineNode_stored stored

theorem resolve_resolved (ok : r.resolve e = .ok x) : r.resolve x = .ok x := by
  have stored := inline_stored (names_resolve ok)
  simp only [resolve, bind_eq_ok, pure_eq_ok] at ok ⊢
  obtain ⟨y, -, checked, accepted, rfl⟩ := ok
  exact ⟨y, stored, checked, accepted, rfl⟩

end Resolver

end Rollup
