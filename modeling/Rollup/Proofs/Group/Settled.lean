import Rollup.Proofs.Group.Interning

/-! Conditions where all aggregates are collected.

A condition is lifted when only some of the aggregates of a query are collected. Lifted again where
all of them are, it is the same condition, and nothing is added. So what a conjunct refers to does
not depend on what was collected before it.
-/

set_option autoImplicit false

namespace Rollup

open AggregateCall (Different InternedAt)

/-- A computation that finds again what it has collected, and then collects nothing. -/
def Settles {α : Type} (m : Collecting α) : Prop :=
  ∀ first x last, m.run first = .ok (x, last) → first <+: last ∧
    ∀ calls, Different calls → last <+: calls → m.run calls = .ok (x, calls)

namespace Settles
variable {α β : Type} {m : Collecting α} {f : α → Collecting β}

theorem pure (x : α) : Settles (pure x) := by
  intro first y last ok
  obtain ⟨rfl, rfl⟩ := run_pure_eq_ok.mp ok
  exact ⟨List.prefix_rfl, fun _ _ _ => rfl⟩

theorem throw (fault : CompileError) : Settles (throw fault : Collecting α) := by
  intro first x last ok
  cases ok

theorem lift (m : Except CompileError α) : Settles (liftM m : Collecting α) := by
  intro first x last ok
  obtain ⟨found, rfl⟩ := run_lift_eq_ok.mp ok
  exact ⟨List.prefix_rfl, fun _ _ _ => run_lift_eq_ok.mpr ⟨found, rfl⟩⟩

theorem bind (settles : Settles m) (next : ∀ x, Settles (f x)) : Settles (m >>= f) := by
  intro first y last ok
  obtain ⟨x, middle, one, two⟩ := run_bind_eq_ok.mp ok
  obtain ⟨kept, again⟩ := settles first x middle one
  obtain ⟨kept', again'⟩ := next x middle y last two
  refine ⟨kept.trans kept', fun calls different more => ?_⟩
  have head := again calls different (kept'.trans more)
  exact run_bind_eq_ok.mpr ⟨x, calls, head, again' calls different more⟩

theorem mapM {as : List α} (each : ∀ a ∈ as, Settles (f a)) : Settles (as.mapM f) := by
  induction as with
  | nil => exact .pure []
  | cons a rest ih =>
    rw [List.mapM_cons]
    refine (each a List.mem_cons_self).bind fun b => ?_
    exact (ih fun a member => each a (List.mem_cons_of_mem _ member)).bind fun bs => .pure (b :: bs)

end Settles

theorem settles_intern (call : AggregateCall) : Settles (intern call) := by
  intro first index last ok
  obtain ⟨more, interned⟩ := extends_intern ok
  refine ⟨more.kept, fun calls different kept => ?_⟩
  obtain ⟨same, found, equal⟩ := interned.mono kept
  simp only [intern, StateT.run]
  split
  · rename_i place first
    obtain ⟨bound, is, -⟩ := List.findIdx?_eq_some_iff_getElem.mp first
    have here : InternedAt calls call place := ⟨_, List.getElem?_eq_getElem bound, is⟩
    rw [(here.place_iff different ⟨same, found, equal⟩).mpr ⟨rfl, BEq.rfl⟩]
  · rename_i absent
    have differs := List.findIdx?_eq_none_iff.mp absent same (List.mem_of_getElem? found)
    cases differs.symm.trans equal

theorem settles_lift (registry : Registry) (onColumn : String → Except CompileError GroupExpr)
    (e : Expr) : Settles (lift registry onColumn e) := by
  induction e with
  | literal value => exact .pure _
  | column name => exact .lift _
  | placeholder name => exact .throw _
  | binary op left right ihl ihr => exact ihl.bind fun _ => ihr.bind fun _ => .pure _
  | unary op operand ih => exact ih.bind fun _ => .pure _
  | inList operand items negated ih ihs =>
    rw [lift, liftEach_eq]
    exact ih.bind fun _ => (Settles.mapM ihs).bind fun _ => .pure _
  | call name args ihs =>
    rw [lift, liftEach_eq]
    split
    · exact (settles_intern _).bind fun _ => .pure _
    · exact (Settles.mapM ihs).bind fun _ => .pure _

namespace FilterScope

theorem settles_liftResolved (scope : FilterScope) (e : Expr) : Settles (scope.liftResolved e) :=
  (Settles.lift _).bind fun _ => settles_lift _ _ _

theorem settles_liftName (scope : FilterScope) (name : String) :
    Settles (scope.liftName name) := by
  unfold liftName
  split
  · exact .pure _
  · split
    · split
      · exact .pure _
      · exact .throw _
    · split
      · exact scope.settles_liftResolved _
      · exact .throw _

theorem settles_liftExpr (scope : FilterScope) (e : Expr) : Settles (scope.liftExpr e) := by
  induction e with
  | literal value => exact .pure _
  | column name => exact scope.settles_liftName name
  | placeholder name => exact (Settles.lift _).bind fun _ => .pure _
  | binary op left right ihl ihr => exact ihl.bind fun _ => ihr.bind fun _ => .pure _
  | unary op operand ih => exact ih.bind fun _ => .pure _
  | inList operand items negated ih ihs =>
    rw [liftExpr, liftEach_eq]
    exact ih.bind fun _ => (Settles.mapM ihs).bind fun _ => .pure _
  | call name args ihs =>
    rw [liftExpr, liftEach_eq]
    split
    · exact .throw _
    · split
      · exact scope.settles_liftResolved _
      · split
        · exact .throw _
        · exact (Settles.mapM ihs).bind fun _ => .pure _

theorem settles_liftCondition (scope : FilterScope) (conjunct : Expr) :
    Settles (scope.liftCondition conjunct) := by
  refine (scope.settles_liftExpr conjunct).bind fun x => ?_
  split
  · exact .pure _
  · exact (Settles.lift _).bind fun _ => .pure _

end FilterScope

namespace Compiler

/-- The conditions of an analysis are those of the conjuncts where its aggregates are collected. -/
theorem settled_conditions {c : Compiler} {query : Query} {seconds : Option Int} {a : Analysis}
    (ok : c.analyze query ⟨c.schema, c.registry, seconds⟩ = .ok a) :
    List.Forall₂ (fun conjunct condition =>
      ((c.filterScope seconds a.keys a.outputs).liftCondition conjunct).run a.calls =
        .ok (condition, a.calls)) query.conjuncts a.conditions := by
  obtain ⟨different, -⟩ := interned_analyze ok
  obtain ⟨s, -, keys, outputs, -, tests⟩ := analyze_eq_ok ok
  rw [← keys, ← outputs] at tests
  obtain ⟨-, each⟩ := (runs_conditions tests).grows (R := (· <+: ·))
    (G := fun known conjunct condition => ∀ calls, Different calls → known <+: calls →
      ((c.filterScope seconds a.keys a.outputs).liftCondition conjunct).run calls =
        .ok (condition, calls))
    (fun _ => List.prefix_rfl) (fun _ _ _ => .trans)
    (fun _ _ _ _ more again _ different kept => again _ different (more.trans kept))
    fun conjunct _ _ _ _ => FilterScope.settles_liftCondition _ conjunct _ _ _
  exact each.imp fun _ _ again => again a.calls different List.prefix_rfl

end Compiler

end Rollup
