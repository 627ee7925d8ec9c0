import Mathlib.Data.List.Forall2
import Rollup.Sql.Expr

/-! Expressions of statements: induction, their parts, the columns that they read, and expressions
put in the place of columns.

The induction principle gives a hypothesis for every item of a list. Columns are those of the parts
in their order. A column by its name alone can be replaced; one that names its table cannot, and an
expression with such a column has no image.
-/

set_option autoImplicit false

namespace Rollup.Sql.Expr

-- The motives for lists say what holds of all items, and that for sort keys what holds of the key.
@[elab_as_elim, induction_eliminator]
theorem byParts {P : Expr → Prop}
    (column : ∀ table name, P (.column table name))
    (literal : ∀ value, P (.literal value))
    (binary : ∀ op left right, P left → P right → P (.binary op left right))
    (unary : ∀ op operand, P operand → P (.unary op operand))
    (function : ∀ name args distinct, (∀ arg ∈ args, P arg) → P (.function name args distinct))
    (inList : ∀ operand values negated, P operand → (∀ value ∈ values, P value) →
      P (.inList operand values negated))
    (isNull : ∀ operand negated, P operand → P (.isNull operand negated))
    (star : ∀ table, P (.star table))
    (window : ∀ call partitionBy orderBy, P call → (∀ part ∈ partitionBy, P part) →
      (∀ order ∈ orderBy, P order.key) → P (.window call partitionBy orderBy))
    (interval : ∀ count unit, P (.interval count unit))
    (typed : ∀ type text, P (.typed type text)) (e : Expr) : P e :=
  @Expr.rec P (fun es => ∀ e ∈ es, P e) (fun orders => ∀ order ∈ orders, P order.key)
    (fun order => P order.key) column literal binary unary function inList isNull star window
    interval typed
    (fun _ member => absurd member List.not_mem_nil)
    (fun _ _ head tail _ member => (List.mem_cons.mp member).elim (· ▸ head) (tail _))
    (fun _ member => absurd member List.not_mem_nil)
    (fun _ _ head tail _ member => (List.mem_cons.mp member).elim (· ▸ head) (tail _))
    (fun _ _ key => key) e

mutual

/-- An expression and everything inside it. -/
def nodes : Expr → List Expr
  | .column table name => [.column table name]
  | .literal value => [.literal value]
  | .binary op left right => .binary op left right :: (nodes left ++ nodes right)
  | .unary op operand => .unary op operand :: nodes operand
  | .function name args distinct => .function name args distinct :: nodesEach args
  | .inList operand values negated =>
    .inList operand values negated :: (nodes operand ++ nodesEach values)
  | .isNull operand negated => .isNull operand negated :: nodes operand
  | .star table => [.star table]
  | .window call partitionBy orderBy =>
    .window call partitionBy orderBy ::
      (nodes call ++ nodesEach partitionBy ++ nodesKeys orderBy)
  | .interval count unit => [.interval count unit]
  | .typed type text => [.typed type text]

def nodesEach : List Expr → List Expr
  | [] => []
  | e :: rest => nodes e ++ nodesEach rest

def nodesKeys : List (SortKey Expr) → List Expr
  | [] => []
  | ⟨e, _⟩ :: rest => nodes e ++ nodesKeys rest

end

theorem nodesEach_eq (es : List Expr) : nodesEach es = es.flatMap nodes := by
  induction es with
  | nil => rfl
  | cons e rest ih => rw [nodesEach, ih, List.flatMap_cons]

theorem nodesKeys_eq (orders : List (SortKey Expr)) :
    nodesKeys orders = orders.flatMap fun order => order.key.nodes := by
  induction orders with
  | nil => rfl
  | cons order rest ih => rw [nodesKeys, ih, List.flatMap_cons]

section
variable {P : Expr → Prop} {left right operand call : Expr} {es args values partitionBy : List Expr}
  {orders : List (SortKey Expr)} {name : String} {distinct negated : Bool}

theorem forall_nodesEach :
    (∀ node ∈ nodesEach es, P node) ↔ ∀ e ∈ es, ∀ node ∈ e.nodes, P node := by
  rw [nodesEach_eq, List.forall_mem_flatMap]

theorem forall_nodesKeys : (∀ node ∈ nodesKeys orders, P node) ↔
    ∀ order ∈ orders, ∀ node ∈ order.key.nodes, P node := by
  rw [nodesKeys_eq, List.forall_mem_flatMap]

theorem forall_nodes_binary {op : BinaryOp} : (∀ node ∈ (binary op left right).nodes, P node) ↔
    P (binary op left right) ∧ (∀ node ∈ left.nodes, P node) ∧ ∀ node ∈ right.nodes, P node :=
  List.forall_mem_cons.trans (and_congr_right fun _ => List.forall_mem_append)

theorem forall_nodes_unary {op : UnaryOp} : (∀ node ∈ (unary op operand).nodes, P node) ↔
    P (unary op operand) ∧ ∀ node ∈ operand.nodes, P node :=
  List.forall_mem_cons

theorem forall_nodes_isNull : (∀ node ∈ (isNull operand negated).nodes, P node) ↔
    P (isNull operand negated) ∧ ∀ node ∈ operand.nodes, P node :=
  List.forall_mem_cons

theorem forall_nodes_function : (∀ node ∈ (function name args distinct).nodes, P node) ↔
    P (function name args distinct) ∧ ∀ arg ∈ args, ∀ node ∈ arg.nodes, P node :=
  List.forall_mem_cons.trans (and_congr_right fun _ => forall_nodesEach)

theorem forall_nodes_inList : (∀ node ∈ (inList operand values negated).nodes, P node) ↔
    P (inList operand values negated) ∧ (∀ node ∈ operand.nodes, P node) ∧
      ∀ value ∈ values, ∀ node ∈ value.nodes, P node :=
  List.forall_mem_cons.trans (and_congr_right fun _ =>
    List.forall_mem_append.trans (and_congr_right fun _ => forall_nodesEach))

theorem forall_nodes_window : (∀ node ∈ (window call partitionBy orders).nodes, P node) ↔
    P (window call partitionBy orders) ∧ (∀ node ∈ call.nodes, P node) ∧
      (∀ part ∈ partitionBy, ∀ node ∈ part.nodes, P node) ∧
      ∀ order ∈ orders, ∀ node ∈ order.key.nodes, P node := by
  refine List.forall_mem_cons.trans (and_congr_right fun _ => ?_)
  rw [List.forall_mem_append, List.forall_mem_append, forall_nodesEach, forall_nodesKeys, and_assoc]

end

/-! ## Columns -/

theorem columnsEach_eq (es : List Expr) : columnsEach es = es.flatMap columns := by
  induction es with
  | nil => rfl
  | cons e rest ih => rw [columnsEach, ih, List.flatMap_cons]

theorem columnsKeys_eq (orders : List (SortKey Expr)) :
    columnsKeys orders = orders.flatMap fun order => order.key.columns := by
  induction orders with
  | nil => rfl
  | cons order rest ih => rw [columnsKeys, ih, List.flatMap_cons]

@[simp] theorem columns_named (name : String) : (named name).columns = [name] := rfl

@[simp] theorem columns_apply (name : String) (args : List Expr) :
    (apply name args).columns = args.flatMap columns := columnsEach_eq args

theorem columns_foldl_and (conditions : List Expr) (first : Expr) :
    (conditions.foldl (.binary .and) first).columns =
      first.columns ++ conditions.flatMap columns := by
  induction conditions generalizing first with
  | nil => simp
  | cons condition rest ih =>
    rw [List.foldl_cons, ih, List.flatMap_cons, columns, List.append_assoc]

theorem columns_conjunction? {conditions : List Expr} {e : Expr}
    (joined : conjunction? conditions = some e) : e.columns = conditions.flatMap columns := by
  cases conditions with
  | nil => cases joined
  | cons first rest =>
    cases joined
    exact columns_foldl_and rest first

theorem forall_conjunction? {P : Expr → Prop} {conditions : List Expr} {e : Expr}
    (keeps : ∀ left right, P left → P right → P (.binary .and left right))
    (each : ∀ condition ∈ conditions, P condition) (joined : conjunction? conditions = some e) :
    P e := by
  have rest : ∀ (conditions : List Expr) (first : Expr), P first →
      (∀ condition ∈ conditions, P condition) → P (conditions.foldl (.binary .and) first) := by
    intro conditions
    induction conditions with
    | nil => exact fun _ start _ => start
    | cons condition rest ih =>
      intro first start each
      obtain ⟨head, tail⟩ := List.forall_mem_cons.mp each
      exact ih _ (keeps first condition start head) tail
  cases conditions with
  | nil => cases joined
  | cons first others =>
    cases joined
    obtain ⟨head, tail⟩ := List.forall_mem_cons.mp each
    exact rest others first head tail

/-! ## Replacing columns -/

mutual

/-- Put expressions in the place of columns, if there is one for each of them. -/
def substitute? (f : String → Option Expr) : Expr → Option Expr
  | .column none name => f name
  | .column (some _) _ => none
  | .literal value => some (.literal value)
  | .binary op left right => do
    let left ← substitute? f left
    let right ← substitute? f right
    return .binary op left right
  | .unary op operand => do
    let operand ← substitute? f operand
    return .unary op operand
  | .function name args distinct => do
    let args ← substituteEach? f args
    return .function name args distinct
  | .inList operand values negated => do
    let operand ← substitute? f operand
    let values ← substituteEach? f values
    return .inList operand values negated
  | .isNull operand negated => do
    let operand ← substitute? f operand
    return .isNull operand negated
  | .star table => some (.star table)
  | .window call partitionBy orderBy => do
    let call ← substitute? f call
    let partitionBy ← substituteEach? f partitionBy
    let orderBy ← substituteKeys? f orderBy
    return .window call partitionBy orderBy
  | .interval count unit => some (.interval count unit)
  | .typed type text => some (.typed type text)

def substituteEach? (f : String → Option Expr) : List Expr → Option (List Expr)
  | [] => some []
  | e :: rest => do
    let e ← substitute? f e
    let rest ← substituteEach? f rest
    return e :: rest

def substituteKeys? (f : String → Option Expr) :
    List (SortKey Expr) → Option (List (SortKey Expr))
  | [] => some []
  | ⟨e, direction⟩ :: rest => do
    let e ← substitute? f e
    let rest ← substituteKeys? f rest
    return ⟨e, direction⟩ :: rest

end

@[simp] theorem substitute?_named (f : String → Option Expr) (name : String) :
    (named name).substitute? f = f name := rfl

theorem substituteEach?_eq_some {f : String → Option Expr} {es es' : List Expr}
    (each : List.Forall₂ (fun e e' => e.substitute? f = some e') es es') :
    substituteEach? f es = some es' := by
  induction each with
  | nil => rfl
  | cons first _ ih => simp [substituteEach?, first, ih]

theorem substitute?_apply {f : String → Option Expr} {name : String} {args args' : List Expr}
    (each : List.Forall₂ (fun e e' => e.substitute? f = some e') args args') :
    (apply name args).substitute? f = some (apply name args') := by
  simp [apply, substitute?, substituteEach?_eq_some each]

end Rollup.Sql.Expr
