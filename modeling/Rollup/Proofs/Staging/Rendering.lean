import Rollup.Proofs.Expr.Traversal
import Rollup.Proofs.Group.Substitution
import Rollup.Proofs.Sql.Expr
import Rollup.Proofs.Sql.Zero
import Rollup.Staging.Rendering

/-! Laws of writing expressions as expressions of statements.

Writing is a homomorphism but for the null tests, which look at their operands. So a relation that
respects the ways in which expressions are put together relates whole expressions as soon as it
relates what their references are written as. What they read, and what they become when columns are
replaced, follows from that.
-/

set_option autoImplicit false

namespace Rollup.Renderer

/-! ## Null tests -/

theorem columns_of_isNull {e : Sql.Expr} (null : isNull e = true) : e.columns = [] := by
  unfold isNull at null
  split at null
  · rfl
  · cases null

theorem columns_combine (op : BinaryOp) (left right : Sql.Expr) :
    (combine op left right).columns = left.columns ++ right.columns := by
  have test : ∀ (op : Sql.BinaryOp) (negated : Bool),
      (equality op negated left right).columns = left.columns ++ right.columns := by
    intro op negated
    unfold equality
    split
    · rename_i null
      rw [columns_of_isNull null, List.append_nil]
      rfl
    · split
      · rename_i null
        rw [columns_of_isNull null, List.nil_append]
        rfl
      · rfl
  cases op with
  | eq => exact test .eq false
  | ne => exact test .ne true
  | _ => rfl

theorem isNull_combine (op : BinaryOp) (left right : Sql.Expr) :
    isNull (combine op left right) = false := by
  have test : ∀ (op : Sql.BinaryOp) (negated : Bool),
      isNull (equality op negated left right) = false := by
    intro op negated
    unfold equality
    split
    · rfl
    · split <;> rfl
  cases op with
  | eq => exact test .eq false
  | ne => exact test .ne true
  | _ => rfl

/-! ## Related expressions -/

/-- Relations that respect the ways in which expressions are put together, where only certain
functions are called. -/
structure CongruentFor (Callable : String → Prop) (R : Sql.Expr → Sql.Expr → Prop) : Prop where
  literal (value : Literal) : R value.toSql value.toSql
  combine {left left' right right' : Sql.Expr} (op : BinaryOp) :
    R left left' → R right right' → R (combine op left right) (combine op left' right')
  unary {operand operand' : Sql.Expr} (op : UnaryOp) :
    R operand operand' → R (.unary op.toSql operand) (.unary op.toSql operand')
  inList {operand operand' : Sql.Expr} {items items' : List Sql.Expr} (negated : Bool) :
    R operand operand' → List.Forall₂ R items items' →
      R (.inList operand items negated) (.inList operand' items' negated)
  apply {args args' : List Sql.Expr} (name : String) :
    Callable name → List.Forall₂ R args args' → R (.apply name args) (.apply name args')

abbrev Congruent : (Sql.Expr → Sql.Expr → Prop) → Prop := CongruentFor fun _ => True

theorem congruent_eq : Congruent Eq where
  literal _ := rfl
  combine op left right := by rw [left, right]
  unary op operand := by rw [operand]
  inList negated operand items := by
    rw [List.forall₂_eq_eq_eq] at items
    rw [operand, items]
  apply name _ args := by
    rw [List.forall₂_eq_eq_eq] at args
    rw [args]

theorem Congruent.comp {R S : Sql.Expr → Sql.Expr → Prop} (first : Congruent R)
    (second : Congruent S) : Congruent (Relation.Comp R S) where
  literal value := ⟨_, first.literal value, second.literal value⟩
  combine := by
    rintro left left' right right' op ⟨l, l₁, l₂⟩ ⟨r, r₁, r₂⟩
    exact ⟨_, first.combine op l₁ r₁, second.combine op l₂ r₂⟩
  unary := by
    rintro operand operand' op ⟨x, x₁, x₂⟩
    exact ⟨_, first.unary op x₁, second.unary op x₂⟩
  inList := by
    rintro operand operand' items items' negated ⟨x, x₁, x₂⟩ both
    obtain ⟨xs, xs₁, xs₂⟩ := related_between both
    exact ⟨_, first.inList negated x₁ xs₁, second.inList negated x₂ xs₂⟩
  apply := by
    rintro args args' name callable both
    obtain ⟨xs, xs₁, xs₂⟩ := related_between both
    exact ⟨_, first.apply name callable xs₁, second.apply name callable xs₂⟩

theorem groupExprs_eq (reference : Reference → Except CompileError Sql.Expr)
    (es : List GroupExpr) : groupExprs reference es = es.mapM (groupExpr reference) := by
  induction es with
  | nil => rfl
  | cons e rest ih => rw [groupExprs, ih, List.mapM_cons]

theorem groupExprs_eq_ok {reference : Reference → Except CompileError Sql.Expr}
    {es : List GroupExpr} {written : List Sql.Expr} :
    groupExprs reference es = .ok written ↔
      List.Forall₂ (fun e e' => groupExpr reference e = .ok e') es written := by
  rw [groupExprs_eq, mapM_eq_ok]

/-- Expressions whose references are related to others are related to the same expressions of the
others. -/
theorem groupExpr_related {Callable : String → Prop} {R : Sql.Expr → Sql.Expr → Prop}
    (congruent : CongruentFor Callable R)
    {reference reference' : Reference → Except CompileError Sql.Expr} {e : GroupExpr}
    {written : Sql.Expr} (called : ∀ name ∈ e.calls, Callable name)
    (related : ∀ target ∈ e.references, ∀ x, reference target = .ok x →
      ∃ y, reference' target = .ok y ∧ R x y)
    (ok : groupExpr reference e = .ok written) :
    ∃ written', groupExpr reference' e = .ok written' ∧ R written written' := by
  have each : ∀ {es : List GroupExpr} {xs : List Sql.Expr},
      (∀ e ∈ es, ∀ x, groupExpr reference e = .ok x →
        ∃ y, groupExpr reference' e = .ok y ∧ R x y) →
      groupExprs reference es = .ok xs →
      ∃ ys, groupExprs reference' es = .ok ys ∧ List.Forall₂ R xs ys := by
    intro es xs one ok
    simp only [groupExprs_eq_ok] at ok ⊢
    induction ok with
    | nil => exact ⟨[], .nil, .nil⟩
    | cons first _ ih =>
      obtain ⟨y, ok, head⟩ := one _ List.mem_cons_self _ first
      obtain ⟨ys, oks, tail⟩ := ih fun e member => one e (List.mem_cons_of_mem _ member)
      exact ⟨y :: ys, .cons ok oks, .cons head tail⟩
  induction e generalizing written with
  | reference target => exact related target (by simp) written ok
  | literal value =>
    cases ok
    exact ⟨_, rfl, congruent.literal value⟩
  | binary op left right ihl ihr =>
    simp only [groupExpr, bind_eq_ok, pure_eq_ok] at ok ⊢
    obtain ⟨l, okl, r, okr, rfl⟩ := ok
    obtain ⟨l', okl', left⟩ := ihl (fun name member => called name (by simp [member]))
      (fun target member => related target (by simp [member])) okl
    obtain ⟨r', okr', right⟩ := ihr (fun name member => called name (by simp [member]))
      (fun target member => related target (by simp [member])) okr
    exact ⟨_, ⟨l', okl', r', okr', rfl⟩, congruent.combine op left right⟩
  | unary op operand ih =>
    simp only [groupExpr, bind_eq_ok, pure_eq_ok] at ok ⊢
    obtain ⟨x, ok, rfl⟩ := ok
    obtain ⟨y, ok', operand⟩ := ih (fun name member => called name (by simpa))
      (fun target member => related target (by simpa)) ok
    exact ⟨_, ⟨y, ok', rfl⟩, congruent.unary op operand⟩
  | inList operand items negated ih ihs =>
    simp only [groupExpr, bind_eq_ok, pure_eq_ok] at ok ⊢
    obtain ⟨x, ok, xs, oks, rfl⟩ := ok
    obtain ⟨y, ok', operand⟩ := ih (fun name member => called name (by simp [member]))
      (fun target member => related target (by simp [member])) ok
    obtain ⟨ys, oks', items⟩ := each (fun item listed x ok => ihs item listed
      (fun name member => called name (by simp; exact .inr ⟨item, listed, member⟩))
      (fun target member => related target (by simp; exact .inr ⟨item, listed, member⟩)) ok) oks
    exact ⟨_, ⟨y, ok', ys, oks', rfl⟩, congruent.inList negated operand items⟩
  | call name args ihs =>
    simp only [groupExpr, bind_eq_ok, pure_eq_ok] at ok ⊢
    obtain ⟨xs, oks, rfl⟩ := ok
    obtain ⟨ys, oks', args⟩ := each (fun arg listed x ok => ihs arg listed
      (fun name member => called name (by simp; exact .inr ⟨arg, listed, member⟩))
      (fun target member => related target (by simp; exact ⟨arg, listed, member⟩)) ok) oks
    exact ⟨_, ⟨ys, oks', rfl⟩, congruent.apply name (called name (by simp)) args⟩

theorem rowExprs_eq (es : List Expr) : rowExprs es = es.mapM rowExpr := by
  induction es with
  | nil => rfl
  | cons e rest ih => rw [rowExprs, ih, List.mapM_cons]

theorem rowExprs_eq_ok {es : List Expr} {written : List Sql.Expr} :
    rowExprs es = .ok written ↔ List.Forall₂ (fun e e' => rowExpr e = .ok e') es written := by
  rw [rowExprs_eq, mapM_eq_ok]

theorem rowExpr_related {Callable : String → Prop} {R : Sql.Expr → Sql.Expr → Prop}
    (congruent : CongruentFor Callable R) {e : Expr} {written : Sql.Expr}
    (ok : rowExpr e = .ok written) (called : ∀ name ∈ e.calls, Callable name)
    (related : ∀ name ∈ e.columns, R (.named name) (.named name)) : R written written := by
  have each : ∀ {es : List Expr} {xs : List Sql.Expr},
      (∀ e ∈ es, ∀ x, rowExpr e = .ok x → R x x) → rowExprs es = .ok xs →
      List.Forall₂ R xs xs := by
    intro es xs one oks
    refine List.forall₂_same.mpr fun x listed => ?_
    obtain ⟨e, origin, ok⟩ := related_of_mem_right (rowExprs_eq_ok.mp oks) listed
    exact one e origin x ok
  induction e generalizing written with
  | literal value =>
    cases ok
    exact congruent.literal value
  | column column =>
    cases ok
    exact related column (by simp)
  | placeholder placeholder => cases ok
  | binary op left right ihl ihr =>
    simp only [rowExpr, bind_eq_ok, pure_eq_ok] at ok
    obtain ⟨l, okl, r, okr, rfl⟩ := ok
    exact congruent.combine op
      (ihl okl (fun name member => called name (by simp [member]))
        fun name member => related name (by simp [member]))
      (ihr okr (fun name member => called name (by simp [member]))
        fun name member => related name (by simp [member]))
  | unary op operand ih =>
    simp only [rowExpr, bind_eq_ok, pure_eq_ok] at ok
    obtain ⟨x, ok, rfl⟩ := ok
    exact congruent.unary op (ih ok (fun name member => called name (by simp [member]))
      fun name member => related name (by simp [member]))
  | inList operand items negated ih ihs =>
    simp only [rowExpr, bind_eq_ok, pure_eq_ok] at ok
    obtain ⟨x, ok, xs, oks, rfl⟩ := ok
    refine congruent.inList negated (ih ok (fun name member => called name (by simp [member]))
      fun name member => related name (by simp [member])) (each (fun item listed x ok => ?_) oks)
    exact ihs item listed ok
      (fun name member => called name (Expr.mem_calls_inList.mpr (.inr ⟨item, listed, member⟩)))
      fun name member => related name (Expr.mem_columns_inList.mpr (.inr ⟨item, listed, member⟩))
  | call function args ihs =>
    simp only [rowExpr, bind_eq_ok, pure_eq_ok] at ok
    obtain ⟨xs, oks, rfl⟩ := ok
    refine congruent.apply function (called function (by simp))
      (each (fun arg listed x ok => ?_) oks)
    exact ihs arg listed ok
      (fun name member => called name (Expr.mem_calls_call.mpr (.inr ⟨arg, listed, member⟩)))
      fun name member => related name (Expr.mem_columns_call.mpr ⟨arg, listed, member⟩)

theorem isNull_groupExpr {reference : Reference → Except CompileError Sql.Expr} {e : GroupExpr}
    {written : Sql.Expr} (compound : e.isCompound = true)
    (ok : groupExpr reference e = .ok written) : isNull written = false := by
  cases e with
  | reference target => cases compound
  | literal value => cases compound
  | binary op left right =>
    simp only [groupExpr, bind_eq_ok, pure_eq_ok] at ok
    obtain ⟨l, -, r, -, rfl⟩ := ok
    exact isNull_combine op l r
  | unary op operand =>
    simp only [groupExpr, bind_eq_ok, pure_eq_ok] at ok
    obtain ⟨x, -, rfl⟩ := ok
    rfl
  | inList operand items negated =>
    simp only [groupExpr, bind_eq_ok, pure_eq_ok] at ok
    obtain ⟨x, -, xs, -, rfl⟩ := ok
    rfl
  | call name args =>
    simp only [groupExpr, bind_eq_ok, pure_eq_ok] at ok
    obtain ⟨xs, -, rfl⟩ := ok
    rfl

/-! ## Columns -/

-- Reading columns is a property, so as a relation it does not look at its second argument.
theorem congruent_columns (P : String → Prop) :
    Congruent fun written _ => ∀ name ∈ written.columns, P name where
  literal value := by cases value <;> simp [Literal.toSql, Sql.Expr.columns]
  combine op left right := by
    rw [columns_combine]
    intro name member
    exact (List.mem_append.mp member).elim (left name) (right name)
  unary op operand := operand
  inList negated operand items := by
    intro name member
    rw [Sql.Expr.columns, Sql.Expr.columnsEach_eq, List.mem_append, List.mem_flatMap] at member
    rcases member with member | ⟨item, listed, member⟩
    · exact operand name member
    · obtain ⟨_, -, each⟩ := related_of_mem_left items listed
      exact each name member
  apply name _ args := by
    intro column member
    rw [Sql.Expr.columns_apply, List.mem_flatMap] at member
    obtain ⟨arg, listed, member⟩ := member
    obtain ⟨_, -, each⟩ := related_of_mem_left args listed
    exact each column member

theorem columns_groupExpr {P : String → Prop}
    {reference : Reference → Except CompileError Sql.Expr} {e : GroupExpr} {written : Sql.Expr}
    (each : ∀ target ∈ e.references, ∀ x, reference target = .ok x → ∀ name ∈ x.columns, P name)
    (ok : groupExpr reference e = .ok written) : ∀ name ∈ written.columns, P name := by
  obtain ⟨_, -, reads⟩ := groupExpr_related (congruent_columns P) (fun _ _ => trivial)
    (fun target member x ok => ⟨x, ok, each target member x ok⟩) ok
  exact reads

theorem columns_rowExpr {e : Expr} {written : Sql.Expr} (ok : rowExpr e = .ok written)
    {name : String} (member : name ∈ written.columns) : name ∈ e.columns := by
  refine rowExpr_related (congruent_columns (· ∈ e.columns)) ok (fun _ _ => trivial) ?_ name member
  intro column listed name member
  obtain rfl := List.mem_singleton.mp member
  exact listed

/-! ## Replacing columns -/

/-- What an expression becomes when its columns are replaced; it stays the null value or stays
something else, so that tests for equality stay what they are. -/
def Replaced (f : String → Option Sql.Expr) (e e' : Sql.Expr) : Prop :=
  e.substitute? f = some e' ∧ isNull e' = isNull e

-- Without the second part the first would not be kept: a column that became the null value would
-- turn a comparison into a null test.
theorem congruent_replaced (f : String → Option Sql.Expr) : Congruent (Replaced f) where
  literal value := by cases value <;> exact ⟨rfl, rfl⟩
  combine := by
    intro left left' right right' op l r
    refine ⟨?_, by rw [isNull_combine, isNull_combine]⟩
    have test : ∀ (op : Sql.BinaryOp) (negated : Bool),
        (equality op negated left right).substitute? f =
          some (equality op negated left' right') := by
      intro op negated
      unfold equality
      rw [l.2, r.2]
      split
      · simp [Sql.Expr.substitute?, l.1]
      · split
        · simp [Sql.Expr.substitute?, r.1]
        · simp [Sql.Expr.substitute?, l.1, r.1]
    cases op with
    | eq => exact test .eq false
    | ne => exact test .ne true
    | _ => simp [combine, Sql.Expr.substitute?, l.1, r.1]
  unary op operand := ⟨by simp [Sql.Expr.substitute?, operand.1], rfl⟩
  inList negated operand items := by
    refine ⟨?_, rfl⟩
    have each := Sql.Expr.substituteEach?_eq_some (items.imp fun _ _ => And.left)
    simp [Sql.Expr.substitute?, operand.1, each]
  apply name _ args := ⟨Sql.Expr.substitute?_apply (args.imp fun _ _ => And.left), rfl⟩

theorem replaced_rowExpr {f : String → Option Sql.Expr} {e : Expr} {written : Sql.Expr}
    (ok : rowExpr e = .ok written) (kept : ∀ name ∈ e.columns, f name = some (.named name)) :
    Replaced f written written :=
  rowExpr_related (congruent_replaced f) ok (fun _ _ => trivial)
    fun name member => ⟨kept name member, rfl⟩

/-! ## Equal keys -/

theorem congruent_unsignZeros :
    Congruent fun written written' => written.unsignZeros = written'.unsignZeros where
  literal value := rfl
  combine op left right := by
    rw [Sql.Expr.unsignZeros_combine, Sql.Expr.unsignZeros_combine, left, right]
  unary op operand := by rw [Sql.Expr.unsignZeros, Sql.Expr.unsignZeros, operand]
  inList negated operand items := by
    rw [Sql.Expr.unsignZeros, Sql.Expr.unsignZeros, operand, Sql.Expr.unsignZerosEach_eq items]
  apply name _ args := by
    rw [Sql.Expr.apply, Sql.Expr.apply, Sql.Expr.unsignZeros, Sql.Expr.unsignZeros,
      Sql.Expr.unsignZerosEach_eq args]

/-- Equal keys are written as the same expression up to the signs of zeros. -/
theorem groupExpr_same {reference : Reference → Except CompileError Sql.Expr} {a b : GroupExpr}
    {written : Sql.Expr} (equal : a.same b = true) (ok : groupExpr reference a = .ok written) :
    ∃ written', groupExpr reference b = .ok written' ∧
      written.unsignZeros = written'.unsignZeros := by
  -- The relation of references does not help here: shapes and references agree, literals differ.
  have each : ∀ {as bs : List GroupExpr} {xs : List Sql.Expr},
      List.Forall₂ (fun a b => ∃ _ : GroupExpr.SameTree a b, ∀ {x},
        groupExpr reference a = .ok x →
          ∃ y, groupExpr reference b = .ok y ∧ x.unsignZeros = y.unsignZeros) as bs →
      groupExprs reference as = .ok xs →
      ∃ ys, groupExprs reference bs = .ok ys ∧
        List.Forall₂ (fun x y => x.unsignZeros = y.unsignZeros) xs ys := by
    intro as bs xs related oks
    rw [groupExprs_eq_ok] at oks
    have both := (related_comp oks.flip related).imp fun x b ⟨a, ok, _, write⟩ => write ok
    obtain ⟨ys, alike, written⟩ := related_between (both.imp fun x b ⟨y, ok, same⟩ => ⟨y, same, ok⟩)
    exact ⟨ys, groupExprs_eq_ok.mpr written.flip, alike⟩
  rw [GroupExpr.same_iff] at equal
  induction equal generalizing written with
  | reference target => exact ⟨written, ok, rfl⟩
  | literal equal =>
    cases ok
    exact ⟨_, rfl, Literal.unsignZeros_toSql_of_same equal⟩
  | binary _ _ ihl ihr =>
    simp only [groupExpr, bind_eq_ok, pure_eq_ok] at ok ⊢
    obtain ⟨l, okl, r, okr, rfl⟩ := ok
    obtain ⟨l', okl', left⟩ := ihl okl
    obtain ⟨r', okr', right⟩ := ihr okr
    exact ⟨_, ⟨l', okl', r', okr', rfl⟩, congruent_unsignZeros.combine _ left right⟩
  | unary _ ih =>
    simp only [groupExpr, bind_eq_ok, pure_eq_ok] at ok ⊢
    obtain ⟨x, ok, rfl⟩ := ok
    obtain ⟨y, ok', operand⟩ := ih ok
    exact ⟨_, ⟨y, ok', rfl⟩, congruent_unsignZeros.unary _ operand⟩
  | inList _ _ ih items =>
    simp only [groupExpr, bind_eq_ok, pure_eq_ok] at ok ⊢
    obtain ⟨x, ok, xs, oks, rfl⟩ := ok
    obtain ⟨y, ok', operand⟩ := ih ok
    obtain ⟨ys, oks', items⟩ := each items oks
    exact ⟨_, ⟨y, ok', ys, oks', rfl⟩, congruent_unsignZeros.inList _ operand items⟩
  | call _ args =>
    simp only [groupExpr, bind_eq_ok, pure_eq_ok] at ok ⊢
    obtain ⟨xs, oks, rfl⟩ := ok
    obtain ⟨ys, oks', args⟩ := each args oks
    exact ⟨_, ⟨ys, oks', rfl⟩, congruent_unsignZeros.apply _ trivial args⟩

/-- To write expressions in the place of references is to write the expression with them in
place. -/
theorem groupExpr_substitute (reference : Reference → Except CompileError Sql.Expr)
    (f : Reference → GroupExpr) (e : GroupExpr) :
    groupExpr (fun target => groupExpr reference (f target)) e =
      groupExpr reference (e.substitute f) := by
  have each : ∀ es : List GroupExpr,
      (∀ e ∈ es, groupExpr (fun target => groupExpr reference (f target)) e =
        groupExpr reference (e.substitute f)) →
      groupExprs (fun target => groupExpr reference (f target)) es =
        groupExprs reference (es.map (GroupExpr.substitute f)) := by
    intro es one
    induction es with
    | nil => rfl
    | cons e rest ih =>
      rw [List.map_cons, groupExprs, groupExprs, one e List.mem_cons_self,
        ih fun e member => one e (List.mem_cons_of_mem _ member)]
  induction e with
  | reference target => rfl
  | literal value => rfl
  | binary op left right ihl ihr =>
    rw [GroupExpr.substitute_binary, groupExpr, groupExpr, ihl, ihr]
  | unary op operand ih => rw [GroupExpr.substitute_unary, groupExpr, groupExpr, ih]
  | inList operand items negated ih ihs =>
    rw [GroupExpr.substitute_inList, groupExpr, groupExpr, ih, each items ihs]
  | call name args ihs => rw [GroupExpr.substitute_call, groupExpr, groupExpr, each args ihs]

end Rollup.Renderer
