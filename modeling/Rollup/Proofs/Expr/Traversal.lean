import Rollup.Expr.Traversal

/-! Expressions of queries: induction, their parts, the columns they name, and the functions they
call.

The induction principle gives a hypothesis for every item of a list. What passes from an expression
to its operands holds of all that is inside of it.
-/

set_option autoImplicit false

namespace Rollup.Expr

-- The recursor has a second motive for lists; it says of a list what holds of all its items.
@[elab_as_elim, induction_eliminator]
theorem byParts {P : Expr → Prop}
    (literal : ∀ value, P (.literal value))
    (column : ∀ name, P (.column name))
    (placeholder : ∀ name, P (.placeholder name))
    (binary : ∀ op left right, P left → P right → P (.binary op left right))
    (unary : ∀ op operand, P operand → P (.unary op operand))
    (inList : ∀ operand items negated, P operand → (∀ item ∈ items, P item) →
      P (.inList operand items negated))
    (call : ∀ name args, (∀ arg ∈ args, P arg) → P (.call name args)) (e : Expr) : P e :=
  @Expr.rec P (fun es => ∀ e ∈ es, P e) literal column placeholder binary unary inList call
    (fun _ member => absurd member List.not_mem_nil)
    (fun _ _ head tail _ member => (List.mem_cons.mp member).elim (· ▸ head) (tail _)) e

theorem walkItems_eq (enter : Expr → Bool) (es : List Expr) :
    walkItems enter es = es.flatMap (walk enter) := by
  induction es with
  | nil => rfl
  | cons e rest ih => rw [walkItems, ih, List.flatMap_cons]

theorem transformItemsM_eq {m : Type → Type} [Monad m] [LawfulMonad m] (f : Expr → m Expr)
    (es : List Expr) : transformItemsM f es = es.mapM (transformM f) := by
  induction es with
  | nil => rfl
  | cons e rest ih => rw [transformItemsM, ih, List.mapM_cons]

/-! ## Nodes -/

section
variable {node left right operand : Expr} {args items : List Expr} {function name : String}
  {value : Literal} {op : BinaryOp} {negated : Bool}

theorem nodes_binary :
    (binary op left right).nodes = .binary op left right :: (left.nodes ++ right.nodes) := rfl

theorem nodes_inList : (inList operand items negated).nodes =
    .inList operand items negated :: (operand.nodes ++ items.flatMap nodes) :=
  congrArg (inList operand items negated :: operand.nodes ++ ·) (walkItems_eq _ items)

theorem nodes_call :
    (call function args).nodes = .call function args :: args.flatMap nodes :=
  congrArg (call function args :: ·) (walkItems_eq _ args)

@[simp] theorem mem_nodes_literal : node ∈ (literal value).nodes ↔ node = .literal value :=
  List.mem_singleton

@[simp] theorem mem_nodes_column : node ∈ (column name).nodes ↔ node = .column name :=
  List.mem_singleton

@[simp] theorem mem_nodes_placeholder :
    node ∈ (placeholder name).nodes ↔ node = .placeholder name :=
  List.mem_singleton

@[simp] theorem mem_nodes_binary : node ∈ (binary op left right).nodes ↔
    node = .binary op left right ∨ node ∈ left.nodes ∨ node ∈ right.nodes := by
  rw [nodes_binary, List.mem_cons, List.mem_append]

@[simp] theorem mem_nodes_unary {op : UnaryOp} :
    node ∈ (unary op operand).nodes ↔ node = .unary op operand ∨ node ∈ operand.nodes :=
  List.mem_cons

@[simp] theorem mem_nodes_inList : node ∈ (inList operand items negated).nodes ↔
    node = .inList operand items negated ∨ node ∈ operand.nodes ∨
      ∃ item ∈ items, node ∈ item.nodes := by
  rw [nodes_inList, List.mem_cons, List.mem_append, List.mem_flatMap]

@[simp] theorem mem_nodes_call : node ∈ (call function args).nodes ↔
    node = .call function args ∨ ∃ arg ∈ args, node ∈ arg.nodes := by
  rw [nodes_call, List.mem_cons, List.mem_flatMap]

@[simp] theorem self_mem_nodes (e : Expr) : e ∈ e.nodes := by
  cases e <;> simp

end

/-! ## Parts -/

section
variable {P : Expr → Prop} {enter : Expr → Bool} {e node part whole : Expr}

theorem byChildren (step : ∀ e : Expr, (∀ part ∈ e.children, P part) → P e) (e : Expr) : P e := by
  induction e with
  | literal | column | placeholder => exact step _ nofun
  | binary op left right ihl ihr => exact step _ (by simpa [children] using ⟨ihl, ihr⟩)
  | unary op operand ih => exact step _ (by simpa [children] using ih)
  | inList operand items negated ih ihs => exact step _ (List.forall_mem_cons.mpr ⟨ih, ihs⟩)
  | call name args ihs => exact step _ ihs

theorem mem_walk : node ∈ e.walk enter ↔
    node = e ∨ enter e = true ∧ ∃ part ∈ e.children, node ∈ part.walk enter := by
  cases e with
  | literal | column | placeholder => simp [walk, children]
  | binary | unary | inList | call =>
    rw [walk]
    split <;> simp [children, walkItems_eq, *]

theorem self_mem_walk : e ∈ e.walk enter := mem_walk.mpr (.inl rfl)

theorem child_mem_walk (met : whole ∈ e.walk enter) (enters : enter whole = true)
    (child : part ∈ whole.children) : part ∈ e.walk enter := by
  induction e using byChildren with
  | step e ih =>
    rcases mem_walk.mp met with rfl | ⟨entered, inner, listed, met⟩
    · exact mem_walk.mpr (.inr ⟨enters, part, child, self_mem_walk⟩)
    · exact mem_walk.mpr (.inr ⟨entered, inner, listed, ih inner listed met⟩)

/-- What passes from every expression that is entered to its operands holds wherever a walk
comes. -/
theorem forall_walk (start : P e)
    (step : ∀ whole, P whole → enter whole = true → ∀ part ∈ whole.children, P part) :
    ∀ node ∈ e.walk enter, P node := by
  induction e using byChildren with
  | step e ih =>
    intro node met
    rcases mem_walk.mp met with rfl | ⟨entered, part, listed, met⟩
    · exact start
    · exact ih part listed (step e start entered part listed) node met

theorem forall_nodes (start : P e) (step : ∀ whole, P whole → ∀ part ∈ whole.children, P part) :
    ∀ node ∈ e.nodes, P node :=
  forall_walk start fun whole holds _ => step whole holds

theorem child_mem_nodes (member : whole ∈ e.nodes) (child : part ∈ whole.children) :
    part ∈ e.nodes :=
  child_mem_walk member rfl child

theorem nodes_subset (member : node ∈ e.nodes) : node.nodes ⊆ e.nodes :=
  forall_nodes member fun _ within _ child => child_mem_nodes within child

theorem nodes_subset_of_child (child : part ∈ e.children) : part.nodes ⊆ e.nodes :=
  nodes_subset (child_mem_nodes (self_mem_nodes e) child)

end

/-! ## Columns -/

theorem mem_columns {e : Expr} {name : String} : name ∈ e.columns ↔ .column name ∈ e.nodes := by
  simp only [columns, mem_firstSeen, List.mem_filterMap]
  constructor
  · rintro ⟨node, member, named⟩
    cases node <;> simp_all [columnName?]
  · intro member
    exact ⟨_, member, rfl⟩

theorem columns_subset_of_child {e part : Expr} (child : part ∈ e.children) :
    part.columns ⊆ e.columns :=
  fun _ named => mem_columns.mpr (nodes_subset_of_child child (mem_columns.mp named))

@[simp] theorem not_mem_columns_literal {value : Literal} {name : String} :
    name ∉ (literal value).columns := by
  simp [mem_columns]

@[simp] theorem mem_columns_column {name other : String} :
    name ∈ (column other).columns ↔ name = other := by
  simp [mem_columns]

@[simp] theorem mem_columns_binary {op : BinaryOp} {left right : Expr} {name : String} :
    name ∈ (binary op left right).columns ↔ name ∈ left.columns ∨ name ∈ right.columns := by
  simp [mem_columns]

@[simp] theorem mem_columns_unary {op : UnaryOp} {operand : Expr} {name : String} :
    name ∈ (unary op operand).columns ↔ name ∈ operand.columns := by
  simp [mem_columns]

@[simp] theorem mem_columns_inList {operand : Expr} {items : List Expr} {negated : Bool}
    {name : String} :
    name ∈ (inList operand items negated).columns ↔
      name ∈ operand.columns ∨ ∃ item ∈ items, name ∈ item.columns := by
  simp [mem_columns]

@[simp] theorem mem_columns_call {function : String} {args : List Expr} {name : String} :
    name ∈ (call function args).columns ↔ ∃ arg ∈ args, name ∈ arg.columns := by
  simp [mem_columns]

/-! ## Calls -/

theorem mem_calls {e : Expr} {name : String} :
    name ∈ e.calls ↔ ∃ args, .call name args ∈ e.nodes := by
  simp only [calls, List.mem_filterMap]
  constructor
  · rintro ⟨node, member, named⟩
    cases node <;> simp_all [callName?]
    exact ⟨_, member⟩
  · rintro ⟨args, member⟩
    exact ⟨_, member, rfl⟩

@[simp] theorem mem_calls_binary {op : BinaryOp} {left right : Expr} {name : String} :
    name ∈ (binary op left right).calls ↔ name ∈ left.calls ∨ name ∈ right.calls := by
  simp [mem_calls, exists_or]

@[simp] theorem mem_calls_unary {op : UnaryOp} {operand : Expr} {name : String} :
    name ∈ (unary op operand).calls ↔ name ∈ operand.calls := by
  simp [mem_calls]

@[simp] theorem mem_calls_inList {operand : Expr} {items : List Expr} {negated : Bool}
    {name : String} :
    name ∈ (inList operand items negated).calls ↔
      name ∈ operand.calls ∨ ∃ item ∈ items, name ∈ item.calls := by
  simp only [mem_calls, mem_nodes_inList, reduceCtorEq, false_or, exists_or]
  exact or_congr_right ⟨fun ⟨args, item, listed, member⟩ => ⟨item, listed, args, member⟩,
    fun ⟨item, listed, args, member⟩ => ⟨args, item, listed, member⟩⟩

@[simp] theorem mem_calls_call {function : String} {args : List Expr} {name : String} :
    name ∈ (call function args).calls ↔ name = function ∨ ∃ arg ∈ args, name ∈ arg.calls := by
  simp only [mem_calls, mem_nodes_call, call.injEq, exists_or, exists_and_left]
  refine or_congr (by simp) ⟨fun ⟨others, arg, listed, member⟩ => ⟨arg, listed, others, member⟩,
    fun ⟨arg, listed, others, member⟩ => ⟨others, arg, listed, member⟩⟩

end Rollup.Expr
