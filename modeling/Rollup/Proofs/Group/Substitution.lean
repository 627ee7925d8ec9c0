import Rollup.Proofs.Computation
import Rollup.Proofs.Group.Expr

/-! Putting expressions in the place of references.

A substitution refers to what the replacements refer to, and calls what they call besides. Where
some references have no replacement it fails, and only then; if it succeeds it is the substitution
of the replacements.
-/

set_option autoImplicit false

namespace Rollup.GroupExpr

def substitute (f : Reference → GroupExpr) (e : GroupExpr) : GroupExpr :=
  Id.run (e.substituteM fun target => pure (f target))

variable {f : Reference → GroupExpr}

theorem substituteEachM_eq {m : Type → Type} [Monad m] [LawfulMonad m]
    (f : Reference → m GroupExpr) (es : List GroupExpr) :
    substituteEachM f es = es.mapM (substituteM f) := by
  induction es with
  | nil => rfl
  | cons e rest ih => rw [substituteEachM, ih, List.mapM_cons]

theorem substituteEach_eq (es : List GroupExpr) :
    Id.run (substituteEachM (fun target => pure (f target)) es) = es.map (substitute f) := by
  induction es with
  | nil => rfl
  | cons e rest ih => exact congrArg (substitute f e :: ·) ih

@[simp] theorem substitute_reference (target : Reference) :
    (reference target).substitute f = f target := rfl

@[simp] theorem substitute_literal (value : Literal) :
    (literal value).substitute f = .literal value := rfl

@[simp] theorem substitute_binary (op : BinaryOp) (left right : GroupExpr) :
    (binary op left right).substitute f = .binary op (left.substitute f) (right.substitute f) := rfl

@[simp] theorem substitute_unary (op : UnaryOp) (operand : GroupExpr) :
    (unary op operand).substitute f = .unary op (operand.substitute f) := rfl

@[simp] theorem substitute_inList (operand : GroupExpr) (items : List GroupExpr) (negated : Bool) :
    (inList operand items negated).substitute f =
      .inList (operand.substitute f) (items.map (substitute f)) negated :=
  congrArg (inList (operand.substitute f) · negated) (substituteEach_eq items)

@[simp] theorem substitute_call (name : String) (args : List GroupExpr) :
    (call name args).substitute f = .call name (args.map (substitute f)) :=
  congrArg (call name) (substituteEach_eq args)

theorem substitute_eq {e : GroupExpr} (plain : e.target? = none) :
    e.substitute f = e.withOperands (e.children.map (substitute f)) := by
  cases e with
  | reference target => cases plain
  | _ => simp [children, withOperands]

theorem substitute_withOperands {e : GroupExpr} {es : List GroupExpr} (plain : e.target? = none)
    (length : es.length = e.children.length) :
    (e.withOperands es).substitute f = e.withOperands (es.map (substitute f)) := by
  cases e with
  | reference target => cases plain
  | literal value => rfl
  | binary op left right =>
    match es, length with
    | [_, _], _ => rfl
  | unary op operand =>
    match es, length with
    | [_], _ => rfl
  | inList operand items negated =>
    match es, length with
    | _ :: _, _ => exact substitute_inList ..
  | call name args => exact substitute_call ..

theorem substitute_eq_self {e : GroupExpr}
    (kept : ∀ target ∈ e.references, f target = .reference target) : e.substitute f = e := by
  induction e using byChildren with
  | step e ih =>
    cases is : e.target? with
    | some target =>
      obtain rfl := target?_eq_some.mp is
      exact kept target (by simp)
    | none =>
      rw [references_eq is] at kept
      have parts : e.children.map (substitute f) = e.children.map id :=
        List.map_congr_left fun part child => ih part child fun target refers =>
          kept target (List.mem_flatMap.mpr ⟨part, child, refers⟩)
      rw [substitute_eq is, parts, List.map_id, withOperands_children]

theorem mem_references_substitute {e : GroupExpr} {target : Reference} :
    target ∈ (e.substitute f).references ↔
      ∃ origin ∈ e.references, target ∈ (f origin).references := by
  induction e using byChildren with
  | step e ih =>
    cases is : e.target? with
    | some origin =>
      obtain rfl := target?_eq_some.mp is
      simp
    | none =>
      rw [substitute_eq is, references_eq ((target?_withOperands ..).trans is),
        children_withOperands (List.length_map ..), references_eq is]
      simp only [List.mem_flatMap, List.mem_map, exists_exists_and_eq_and]
      constructor
      · rintro ⟨part, child, refers⟩
        obtain ⟨origin, within, refers⟩ := (ih part child).mp refers
        exact ⟨origin, ⟨part, child, within⟩, refers⟩
      · rintro ⟨origin, ⟨part, child, within⟩, refers⟩
        exact ⟨part, child, (ih part child).mpr ⟨origin, within, refers⟩⟩

theorem mem_calls_substitute {e : GroupExpr} {name : String} :
    name ∈ (e.substitute f).calls ↔
      name ∈ e.calls ∨ ∃ origin ∈ e.references, name ∈ (f origin).calls := by
  induction e using byChildren with
  | step e ih =>
    cases is : e.target? with
    | some origin =>
      obtain rfl := target?_eq_some.mp is
      simp
    | none =>
      have parts : (∃ part ∈ e.children, name ∈ (part.substitute f).calls) ↔
          (∃ part ∈ e.children, name ∈ part.calls) ∨
            ∃ origin ∈ e.references, name ∈ (f origin).calls := by
        rw [references_eq is]
        simp only [List.mem_flatMap]
        constructor
        · rintro ⟨part, child, called⟩
          rcases (ih part child).mp called with called | ⟨origin, within, called⟩
          · exact .inl ⟨part, child, called⟩
          · exact .inr ⟨origin, ⟨part, child, within⟩, called⟩
        · rintro (⟨part, child, called⟩ | ⟨origin, ⟨part, child, within⟩, called⟩)
          · exact ⟨part, child, (ih part child).mpr (.inl called)⟩
          · exact ⟨part, child, (ih part child).mpr (.inr ⟨origin, within, called⟩)⟩
      rw [substitute_eq is, calls_eq, callName?_withOperands,
        children_withOperands (List.length_map ..), calls_eq e, List.mem_append, List.mem_append,
        or_assoc]
      simpa only [List.mem_flatMap, List.mem_map, exists_exists_and_eq_and] using
        or_congr_right parts

theorem level_substitute {e : GroupExpr}
    (each : ∀ target ∈ e.references, (f target).level = target.level) :
    (e.substitute f).level = e.level := by
  -- Two levels are equal if they have the same bounds.
  have bounds : ∀ bound, (e.substitute f).level.rank ≤ bound ↔ e.level.rank ≤ bound := by
    intro bound
    simp only [rank_level_le, mem_references_substitute]
    constructor
    · intro below origin member
      rw [← each origin member, rank_level_le]
      exact fun target refers => below target ⟨origin, member, refers⟩
    · rintro below target ⟨origin, member, refers⟩
      have reached := below origin member
      rw [← each origin member, rank_level_le] at reached
      exact reached target refers
  have same : (e.substitute f).level.rank = e.level.rank :=
    Nat.le_antisymm ((bounds _).mpr (Nat.le_refl _)) ((bounds _).mp (Nat.le_refl _))
  generalize (e.substitute f).level = a at same
  generalize e.level = b at same
  cases a <;> cases b <;> first | rfl | cases same

/-! ## Substitutions that may fail -/

section Failing
variable {ε : Type} {f : Reference → Except ε GroupExpr} {e e' : GroupExpr}

theorem substituteM_eq (plain : e.target? = none) :
    e.substituteM f = e.children.mapM (substituteM f) >>= fun es => pure (e.withOperands es) := by
  cases e with
  | reference target => cases plain
  | _ => simp [substituteM, substituteEachM_eq, children, withOperands]

theorem substituteM_eq_ok (plain : e.target? = none) :
    e.substituteM f = .ok e' ↔
      ∃ es, List.Forall₂ (fun part x => part.substituteM f = .ok x) e.children es ∧
        e.withOperands es = e' := by
  simp only [substituteM_eq plain, bind_eq_ok, mapM_eq_ok, pure_eq_ok]

/-- A failed substitution has met a reference without a replacement. -/
theorem error_of_substituteM {fault : ε} (failed : e.substituteM f = .error fault) :
    ∃ target ∈ e.references, f target = .error fault := by
  induction e using byChildren with
  | step e ih =>
    cases is : e.target? with
    | some target =>
      obtain rfl := target?_eq_some.mp is
      exact ⟨target, by simp, failed⟩
    | none =>
      rw [substituteM_eq is] at failed
      rcases bind_eq_error.mp failed with failed | ⟨_, -, failed⟩
      · obtain ⟨part, child, failed⟩ := mapM_eq_error failed
        obtain ⟨target, refers, found⟩ := ih part child failed
        rw [references_eq is]
        exact ⟨target, List.mem_flatMap.mpr ⟨part, child, refers⟩, found⟩
      · cases failed

theorem substitute_of_substituteM (ok : e.substituteM f = .ok e') :
    ∃ g : Reference → GroupExpr, (∀ target ∈ e.references, f target = .ok (g target)) ∧
      e' = e.substitute g := by
  -- References without a replacement are never met, so any expression will do for them.
  let g : Reference → GroupExpr := fun target => (f target).toOption.getD default
  have given : ∀ {target x}, f target = .ok x → f target = .ok (g target) := by
    intro target x found
    simp [g, found, Except.toOption]
  refine ⟨g, ?_⟩
  induction e using byChildren generalizing e' with
  | step e ih =>
    cases is : e.target? with
    | some target =>
      obtain rfl := target?_eq_some.mp is
      refine ⟨fun other member => ?_, Except.ok.inj (ok.symm.trans (given ok))⟩
      obtain rfl := List.mem_singleton.mp member
      exact given ok
    | none =>
      obtain ⟨es, oks, rfl⟩ := (substituteM_eq_ok is).mp ok
      have each := forall₂_imp_of_mem oks fun part child x => ih part child
      have parts : e.children.map (substitute g) = es.map id :=
        map_eq_iff_related.mpr (each.imp fun _ _ replaced => replaced.2.symm)
      rw [references_eq is, substitute_eq is, parts, List.map_id]
      refine ⟨fun target member => ?_, rfl⟩
      obtain ⟨part, child, refers⟩ := List.mem_flatMap.mp member
      obtain ⟨x, -, replaced⟩ := related_of_mem_left each child
      exact replaced.1 target refers

end Failing

end Rollup.GroupExpr
