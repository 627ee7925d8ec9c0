import Mathlib.Data.List.Chain
import Rollup.Proofs.Compile.Cycle
import Rollup.Proofs.Group.Call

/-! Resolution comes to an end, in every schema.

A definition is opened only while its column is not being defined, and there are finitely many
columns. So the rules by which names are replaced give every expression one result, and the count of
columns that resolution carries along never runs out before the rules do. What is left when it
succeeds names stored columns and makes calls that are accepted. The columns that are being defined
are always a path of references, so a cycle that is met is a cycle of the schema.
-/

set_option autoImplicit false

namespace Rollup

namespace Schema
variable {schema : Schema} {stack : List String} {depth : Nat} {e : Expr} {name : String}
  {column : DerivedColumn}

def Mentions (schema : Schema) (name other : String) : Prop :=
  ∃ column, schema.column? name = some (.derived column) ∧ other ∈ column.expr.columns

/-- Definitions that lead from a column back to it, with the column at both ends. -/
structure IsCycle (schema : Schema) (names : List String) : Prop where
  length : 2 ≤ names.length
  closed : names.head? = names.getLast?
  mentions : names.IsChain schema.Mentions

def Continues (schema : Schema) (stack : List String) (e : Expr) : Prop :=
  ∀ name ∈ e.columns, (stack ++ [name]).IsChain schema.Mentions

theorem continues_nil : schema.Continues [] e := fun _ _ => List.isChain_singleton _

theorem Continues.part {part : Expr} (continues : schema.Continues stack e)
    (within : part ∈ e.nodes) : schema.Continues stack part := by
  intro name named
  refine continues name (Expr.mem_columns.mpr ?_)
  exact Expr.nodes_subset within (Expr.mem_columns.mp named)

theorem Continues.definition (continues : schema.Continues stack e)
    (found : schema.column? name = some (.derived column)) (named : name ∈ e.columns) :
    schema.Continues (stack ++ [name]) column.expr := by
  intro other mentioned
  refine List.isChain_append.mpr ⟨continues name named, List.isChain_singleton _, ?_⟩
  intro last is next is'
  obtain rfl : name = last := by simpa using is
  obtain rfl : other = next := by simpa using is'
  exact ⟨column, found, mentioned⟩

theorem isCycle_cycleFrom (continues : schema.Continues stack e) (named : name ∈ e.columns)
    (again : name ∈ stack) : schema.IsCycle (Resolver.cycleFrom stack name) := by
  obtain ⟨before, after, rfl, first⟩ := List.eq_append_cons_of_mem again
  have shape : Resolver.cycleFrom (before ++ name :: after) name = name :: (after ++ [name]) := by
    have passed : ∀ other ∈ before, (other != name) = true := by
      intro other listed
      exact bne_iff_ne.mpr fun same => first (same ▸ listed)
    rw [Resolver.cycleFrom, List.dropWhile_append_of_pos passed, List.dropWhile_cons]
    simp
  rw [shape]
  refine ⟨by simp, ?_, ?_⟩
  · rw [List.head?_cons, ← List.cons_append, List.getLast?_append]
    rfl
  have path := continues name named
  rw [List.append_assoc] at path
  exact path.right_of_append

def Bounds (schema : Schema) (stack : List String) (depth : Nat) : Prop :=
  ∀ names : List String, names.Nodup → names ⊆ schema.derivedNames → List.Disjoint names stack →
    names.length ≤ depth

theorem bounds_derived : schema.Bounds [] schema.derived.length := by
  intro names distinct within _
  simpa [derivedNames] using (distinct.subperm within).length_le

theorem Bounds.definition (bounds : schema.Bounds stack depth)
    (found : schema.column? name = some (.derived column)) (fresh : name ∉ stack) :
    ∃ less, depth = less + 1 ∧ schema.Bounds (stack ++ [name]) less := by
  have derived := mem_derivedNames_of_derived? (derived?_of_column? found)
  -- Whatever is left besides the column is one less than with it.
  have more : ∀ names : List String, names.Nodup → names ⊆ schema.derivedNames →
      List.Disjoint names (stack ++ [name]) → names.length + 1 ≤ depth := by
    intro names distinct within apart
    obtain ⟨apart, new⟩ := List.disjoint_append_right.mp apart
    have new : name ∉ names := by simpa using new
    refine bounds (name :: names) (List.nodup_cons.mpr ⟨new, distinct⟩) ?_ ?_
    · exact List.cons_subset.mpr ⟨derived, within⟩
    · exact List.disjoint_cons_left.mpr ⟨fresh, apart⟩
  have positive := more [] .nil (List.nil_subset _) (List.disjoint_nil_left _)
  refine ⟨depth - 1, by simp at positive; omega, fun names distinct within apart => ?_⟩
  have left := more names distinct within apart
  omega

end Schema

namespace Resolver
variable {r : Resolver} {stack : List String} {depth : Nat} {e : Expr} {name : String}
  {result : Except CompileError Expr}

/-! ## Termination -/

/-- The rules by which names are replaced. A definition is opened with its column on the stack, and
an expression is rebuilt with what its names are replaced by. Nothing bounds how often the rules
apply, but what has a derivation takes finitely many of them. -/
inductive Inlines (r : Resolver) : List String → Expr → Except CompileError Expr → Prop
  | placeholder {stack : List String} {name : String} :
    Inlines r stack (.placeholder name) ((r.placeholderValue name).map .literal)
  | unknown {stack : List String} {name : String} : r.schema.column? name = none →
    Inlines r stack (.column name) (.error (.unknownColumn name))
  | stored {stack : List String} {name : String} : r.schema.isStored name = true →
    Inlines r stack (.column name) (.ok (.column name))
  | cycle {stack : List String} {name : String} {column : DerivedColumn} :
    r.schema.column? name = some (.derived column) → name ∈ stack →
    Inlines r stack (.column name) (.error (.derivedCycle (cycleFrom stack name)))
  | derived {stack : List String} {name : String} {column : DerivedColumn}
      {result : Except CompileError Expr} :
    r.schema.column? name = some (.derived column) → name ∉ stack →
    Inlines r (stack ++ [name]) column.expr result → Inlines r stack (.column name) result
  | rewrite {stack : List String} {e : Expr} (f : Expr → Except CompileError Expr) :
    e.isName = false → (∀ node, node.isName = false → f node = .ok node) →
    (∀ node ∈ e.nodes, node.isName = true → Inlines r stack node (f node)) →
    Inlines r stack e (e.transformM f)

theorem inlineWithin_name (is : e.isName = true) :
    r.inlineWithin depth stack e = r.inlineNode depth stack e := by
  rw [inlineWithin_eq]
  cases e <;> first | rfl | cases is

theorem inlineNode_cycle {column : DerivedColumn}
    (found : r.schema.column? name = some (.derived column)) (again : name ∈ stack) :
    r.inlineNode depth stack (.column name) = .error (.derivedCycle (cycleFrom stack name)) := by
  rw [inlineNode, found]
  exact if_pos (by simpa using again)

theorem Inlines.eq_inlineWithin (inlines : r.Inlines stack e result)
    (bounds : r.schema.Bounds stack depth) : result = r.inlineWithin depth stack e := by
  induction inlines generalizing depth with
  | placeholder => rw [inlineWithin_name rfl, inlineNode]
  | unknown missing =>
    rw [inlineWithin_name rfl]
    simp only [inlineNode, missing]
  | stored stored => rw [inlineWithin_name rfl, inlineNode_stored stored]
  | cycle found again => rw [inlineWithin_name rfl, inlineNode_cycle found again]
  | derived found fresh _ ih =>
    obtain ⟨less, rfl, further⟩ := bounds.definition found fresh
    rw [inlineWithin_name rfl, inlineNode_derived found fresh]
    exact ih further
  | rewrite f _ other _ ih =>
    rw [inlineWithin_eq]
    refine Expr.transformM_congr (fun node is => ?_) fun node member is => ?_
    · rw [other node is, inlineNode_other is]
    · rw [ih node member is bounds, inlineWithin_name is]

theorem inlines_inlineWithin (bounds : r.schema.Bounds stack depth) :
    r.Inlines stack e (r.inlineWithin depth stack e) := by
  induction depth using Nat.strongRecOn generalizing stack e with
  | _ depth ih =>
    have names : ∀ node : Expr, node.isName = true →
        r.Inlines stack node (r.inlineNode depth stack node) := by
      intro node is
      cases node with
      | placeholder name => exact .placeholder
      | column name =>
        cases found : r.schema.column? name with
        | none =>
          simp only [inlineNode, found]
          exact .unknown found
        | some column =>
          cases column with
          | derived column =>
            by_cases again : name ∈ stack
            · rw [inlineNode_cycle found again]
              exact .cycle found again
            · obtain ⟨less, rfl, further⟩ := bounds.definition found again
              rw [inlineNode_derived found again]
              exact .derived found again (ih less (Nat.lt_succ_self _) further)
          | _ =>
            simp only [inlineNode, found]
            exact .stored (isStored_of_column? found rfl)
      | _ => cases is
    by_cases is : e.isName = true
    · rw [inlineWithin_name is]
      exact names e is
    · rw [inlineWithin_eq]
      exact .rewrite _ (by simpa using is) (fun node => inlineNode_other) fun node _ => names node

theorem inlines_iff : r.Inlines [] e result ↔ result = r.inline e := by
  constructor
  · intro inlines
    exact inlines.eq_inlineWithin Schema.bounds_derived
  · rintro rfl
    exact inlines_inlineWithin Schema.bounds_derived

/-! ## Results -/

/-- An expression names stored columns, has no placeholders, and makes calls that are accepted, with
no aggregate inside of another. -/
structure IsClean (r : Resolver) (x : Expr) : Prop where
  stored : ∀ name ∈ x.columns, r.schema.isStored name = true
  replaced : ∀ name, .placeholder name ∉ x.nodes
  accepted : ∀ name args, .call name args ∈ x.nodes →
    ∃ spec, r.registry.get? name = some spec ∧ spec.accepts args.length = true
  unnested : ∀ name args, .call name args ∈ x.nodes → r.registry.isAggregate name = true →
    ∀ arg ∈ args, ∀ inner ∈ arg.calls, r.registry.isAggregate inner = false

theorem isClean_resolve {x : Expr} (ok : r.resolve e = .ok x) : r.IsClean x where
  stored _ named := isStored_resolve ok named
  replaced name member := by
    obtain ⟨column, same, -⟩ := names_resolve ok _ member rfl
    cases same
  accepted name args member := by
    obtain ⟨spec, checked⟩ := checked_resolve ok member
    exact ⟨spec, checked.found, checked.accepts⟩
  unnested name args member aggregate arg listed inner called := by
    obtain ⟨spec, checked⟩ := checked_resolve ok member
    rcases checked.isScalar_or with scalar | ⟨-, -, inside⟩
    · rw [Registry.isAggregate, isAggregate_of_isScalar scalar] at aggregate
      cases aggregate
    · rw [Registry.isAggregate, isAggregate_of_isScalar (inside arg listed inner called)]
      rfl

/-! ## Cycles -/

theorem Inlines.isCycle (inlines : r.Inlines stack e result)
    (continues : r.schema.Continues stack e) {names : List String}
    (failed : result = .error (.derivedCycle names)) : r.schema.IsCycle names := by
  induction inlines generalizing names with
  | placeholder =>
    unfold placeholderValue at failed
    split at failed
    · cases failed
    · split at failed <;> cases failed
  | unknown _ => cases failed
  | stored _ => cases failed
  | cycle found again =>
    cases failed
    exact Schema.isCycle_cycleFrom continues (by simp) again
  | derived found _ _ ih => exact ih (continues.definition found (by simp)) failed
  | @rewrite stack e f _ other _ ih =>
    have only : FailsOnly (fun fault => ∀ names, fault = .derivedCycle names →
        r.schema.IsCycle names) (e.transformM f) := by
      refine Expr.failsOnly_transformM (fun node member is fault failed names same => ?_)
        fun node is => ?_
      · exact ih node member is (continues.part member) (failed.trans (same ▸ rfl))
      · rw [other node is]
        exact .ok _
    exact only _ failed names rfl

/-- Resolution comes to an end with the one result that the rules give, clean if it succeeds, and if
it meets a cycle, that is a cycle of the schema. -/
theorem terminates_resolve (r : Resolver) (e : Expr) :
    (∃ result, (∀ other, r.Inlines [] e other ↔ other = result) ∧
      r.resolve e = result.bind fun x => (r.checkCalls none x).map fun _ => x) ∧
    (∀ x, r.resolve e = .ok x → r.IsClean x) ∧
    ∀ names, r.resolve e = .error (.derivedCycle names) → r.schema.IsCycle names := by
  refine ⟨⟨r.inline e, fun _ => inlines_iff, ?_⟩, fun _ => isClean_resolve, fun names failed => ?_⟩
  · unfold resolve
    cases r.inline e with
    | error fault => rfl
    | ok x => cases r.checkCalls none x <;> rfl
  · rcases bind_eq_error.mp failed with failed | ⟨x, -, failed⟩
    · exact (inlines_iff.mpr rfl).isCycle Schema.continues_nil failed
    · -- The calls are checked without a look at the columns.
      have calls : FailsOnly (CompileError.About (fun _ => True) fun _ => True)
          (r.checkCalls none x) :=
        failsOnly_checkCalls (fun _ _ _ => trivial) (fun _ _ _ _ => trivial) fun _ _ => trivial
      rcases bind_eq_error.mp failed with failed | ⟨_, -, failed⟩
      · exact (calls _ failed).elim
      · cases failed

end Resolver

/-- A schema that is not valid: two of its definitions name each other. -/
def Schema.entangled : Schema where
  name := "hosts"
  table := "metrics"
  metrics := [⟨"cpu", .float, .avg⟩]
  derived := [
    ⟨"load", "rate + cpu", .binary .add (.column "rate") (.column "cpu")⟩,
    ⟨"rate", "load / {interval}", .binary .div (.column "load") (.placeholder "interval")⟩,
    ⟨"pace", "sum(cpu) / {interval}",
      .binary .div (.call "sum" [.column "cpu"]) (.placeholder "interval")⟩]

namespace Resolver

theorem terminates_entangled :
    (∃ x, resolve ⟨.entangled, .builtin, some 60⟩ (.column "pace") = .ok x ∧
      IsClean ⟨.entangled, .builtin, some 60⟩ x) ∧
    resolve ⟨.entangled, .builtin, some 60⟩ (.column "rate") =
        .error (.derivedCycle ["rate", "load", "rate"]) ∧
      Schema.entangled.IsCycle ["rate", "load", "rate"] := by
  constructor
  · obtain ⟨x, ok⟩ : ∃ x, resolve ⟨.entangled, .builtin, some 60⟩ (.column "pace") = .ok x :=
      isSome_toOption.mp (by decide +kernel)
    exact ⟨x, ok, (terminates_resolve ⟨.entangled, .builtin, some 60⟩ _).2.1 x ok⟩
  · have cyclic : (match resolve ⟨.entangled, .builtin, some 60⟩ (.column "rate") with
        | .error (.derivedCycle names) => names
        | _ => []) = ["rate", "load", "rate"] := by decide +kernel
    have failed : resolve ⟨.entangled, .builtin, some 60⟩ (.column "rate") =
        .error (.derivedCycle ["rate", "load", "rate"]) := by
      cases result : resolve ⟨.entangled, .builtin, some 60⟩ (.column "rate") with
      | ok x =>
        rw [result] at cyclic
        cases cyclic
      | error fault =>
        rw [result] at cyclic
        cases fault with
        | derivedCycle names =>
          obtain rfl : names = ["rate", "load", "rate"] := cyclic
          rfl
        | _ => cases cyclic
    exact ⟨failed, (terminates_resolve ⟨.entangled, .builtin, some 60⟩ _).2.2 _ failed⟩

end Resolver

end Rollup
