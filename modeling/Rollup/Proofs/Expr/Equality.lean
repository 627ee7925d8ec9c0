import Rollup.Proofs.Computation
import Rollup.Proofs.Expr.Literal
import Rollup.Proofs.Expr.Traversal

/-! Equality of expressions as keys is an equivalence.

Equal expressions are the same tree up to equal literals. As a relation this has one case for every
constructor, so that what equal keys have in common follows by induction on how they are related.
-/

set_option autoImplicit false

namespace Rollup.Expr

variable {a b c : Expr}

/-- The same tree up to equal literals. -/
inductive SameTree : Expr → Expr → Prop
  | literal {value value' : Literal} (equal : value.same value' = true) :
      SameTree (.literal value) (.literal value')
  | column (name : String) : SameTree (.column name) (.column name)
  | placeholder (name : String) : SameTree (.placeholder name) (.placeholder name)
  | binary {op : BinaryOp} {left left' right right' : Expr} (first : SameTree left left')
      (second : SameTree right right') : SameTree (.binary op left right) (.binary op left' right')
  | unary {op : UnaryOp} {operand operand' : Expr} (inner : SameTree operand operand') :
      SameTree (.unary op operand) (.unary op operand')
  | inList {operand operand' : Expr} {items items' : List Expr} {negated : Bool}
      (inner : SameTree operand operand') (each : List.Forall₂ SameTree items items') :
      SameTree (.inList operand items negated) (.inList operand' items' negated)
  | call {name : String} {args args' : List Expr} (each : List.Forall₂ SameTree args args') :
      SameTree (.call name args) (.call name args')

-- The recursor has a second motive for related lists; it says of them what holds of their items.
@[elab_as_elim, induction_eliminator]
theorem SameTree.byParts {P : ∀ a b, SameTree a b → Prop}
    (literal : ∀ {value value' : Literal} (equal : value.same value' = true),
      P (.literal value) (.literal value') (.literal equal))
    (column : ∀ name, P (.column name) (.column name) (.column name))
    (placeholder : ∀ name, P (.placeholder name) (.placeholder name) (.placeholder name))
    (binary : ∀ {op left left' right right'} (first : SameTree left left')
      (second : SameTree right right'), P left left' first → P right right' second →
      P (.binary op left right) (.binary op left' right') (.binary first second))
    (unary : ∀ {op operand operand'} (inner : SameTree operand operand'),
      P operand operand' inner → P (.unary op operand) (.unary op operand') (.unary inner))
    (inList : ∀ {operand operand' items items' negated} (inner : SameTree operand operand')
      (each : List.Forall₂ SameTree items items'), P operand operand' inner →
      List.Forall₂ (fun a b => ∃ same, P a b same) items items' →
      P (.inList operand items negated) (.inList operand' items' negated) (.inList inner each))
    (call : ∀ {name args args'} (each : List.Forall₂ SameTree args args'),
      List.Forall₂ (fun a b => ∃ same, P a b same) args args' →
      P (.call name args) (.call name args') (.call each))
    (same : SameTree a b) : P a b same :=
  @SameTree.rec P (fun as bs _ => List.Forall₂ (fun a b => ∃ same, P a b same) as bs) literal
    column placeholder binary unary inList call .nil
    (fun first _ head tail => .cons ⟨first, head⟩ tail) a b same

namespace SameTree

theorem refl (e : Expr) : SameTree e e := by
  induction e with
  | literal value => exact .literal value.same_refl
  | column name => exact .column name
  | placeholder name => exact .placeholder name
  | binary op left right ihl ihr => exact .binary ihl ihr
  | unary op operand ih => exact .unary ih
  | inList operand items negated ih ihs => exact .inList ih (List.forall₂_same.mpr ihs)
  | call name args ihs => exact .call (List.forall₂_same.mpr ihs)

theorem symm (same : SameTree a b) : SameTree b a := by
  induction same with
  | literal equal => exact .literal (Literal.same_symm equal)
  | column name => exact .column name
  | placeholder name => exact .placeholder name
  | binary first second back back' => exact .binary back back'
  | unary inner back => exact .unary back
  | inList inner each back backs => exact .inList back (backs.imp fun _ _ => Exists.snd).flip
  | call each backs => exact .call (backs.imp fun _ _ => Exists.snd).flip

theorem trans (same : SameTree a b) (onward : SameTree b c) : SameTree a c := by
  induction same generalizing c with
  | literal equal =>
    cases onward with
    | literal next => exact .literal (Literal.same_trans equal next)
  | column name | placeholder name => exact onward
  | binary first second whole whole' =>
    cases onward with
    | binary next next' => exact .binary (whole next) (whole' next')
  | unary inner whole =>
    cases onward with
    | unary next => exact .unary (whole next)
  | inList inner each whole wholes =>
    cases onward with
    | inList next nexts =>
      have every := (related_comp wholes nexts).imp fun _ _ ⟨_, ⟨_, whole⟩, next⟩ => whole next
      exact .inList (whole next) every
  | call each wholes =>
    cases onward with
    | call nexts =>
      exact .call ((related_comp wholes nexts).imp fun _ _ ⟨_, ⟨_, whole⟩, next⟩ => whole next)

end SameTree

theorem sameItems_iff {as bs : List Expr} :
    sameItems as bs = true ↔ List.Forall₂ (fun a b => same a b = true) as bs := by
  induction as generalizing bs with
  | nil => cases bs <;> simp [sameItems]
  | cons a rest ih => cases bs <;> simp [sameItems, ih]

theorem sameTree_of_same (equal : a.same b = true) : SameTree a b := by
  induction a generalizing b with
  | literal value =>
    cases b <;> simp only [same, Bool.false_eq_true] at equal
    exact .literal equal
  | column | placeholder =>
    cases b <;> simp only [same, beq_iff_eq, Bool.false_eq_true] at equal
    exact equal ▸ .refl _
  | binary op left right ihl ihr =>
    cases b <;> simp only [same, Bool.and_eq_true, beq_iff_eq, Bool.false_eq_true] at equal
    obtain ⟨⟨rfl, first⟩, second⟩ := equal
    exact .binary (ihl first) (ihr second)
  | unary op operand ih =>
    cases b <;> simp only [same, Bool.and_eq_true, beq_iff_eq, Bool.false_eq_true] at equal
    obtain ⟨rfl, inner⟩ := equal
    exact .unary (ih inner)
  | inList operand items negated ih ihs =>
    cases b <;> simp only [same, Bool.and_eq_true, beq_iff_eq, Bool.false_eq_true] at equal
    obtain ⟨⟨inner, each⟩, rfl⟩ := equal
    exact .inList (ih inner)
      (forall₂_imp_of_mem (sameItems_iff.mp each) fun item listed b => ihs item listed)
  | call name args ihs =>
    cases b <;> simp only [same, Bool.and_eq_true, beq_iff_eq, Bool.false_eq_true] at equal
    obtain ⟨rfl, each⟩ := equal
    exact .call (forall₂_imp_of_mem (sameItems_iff.mp each) fun arg listed b => ihs arg listed)

theorem same_of_sameTree (tree : SameTree a b) : a.same b = true := by
  induction tree with
  | literal equal => exact equal
  | column | placeholder => simp [same]
  | binary _ _ first second => simp [same, first, second]
  | unary _ inner => simp [same, inner]
  | inList _ _ inner each => simpa [same, inner, sameItems_iff] using each.imp fun _ _ => Exists.snd
  | call _ each => simpa [same, sameItems_iff] using each.imp fun _ _ => Exists.snd

theorem same_iff : a.same b = true ↔ SameTree a b := ⟨sameTree_of_same, same_of_sameTree⟩

theorem same_refl (e : Expr) : e.same e = true := same_iff.mpr (.refl e)

theorem same_symm (equal : a.same b = true) : b.same a = true :=
  same_iff.mpr (same_iff.mp equal).symm

theorem same_trans (first : a.same b = true) (second : b.same c = true) : a.same c = true :=
  same_iff.mpr ((same_iff.mp first).trans (same_iff.mp second))

instance : EquivBEq Expr where
  rfl := same_refl _
  symm := same_symm
  trans := same_trans

end Rollup.Expr
