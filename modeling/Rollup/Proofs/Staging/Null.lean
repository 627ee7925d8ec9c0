import Rollup.Proofs.Staging.Word

/-! Nothing in a stage is compared with a null value.

Such a comparison would never be true, so a test for null is written in its place. The other tests
for equality that a builder writes compare no null value, and the means of the known databases test
nothing for equality.
-/

set_option autoImplicit false

namespace Rollup

namespace Sql.Expr
variable {left right operand e : Expr} {args items : List Expr} {name : String}

/-- Whether an expression tests a null value for equality, or for its opposite. -/
def comparesNull : Expr → Bool
  | .binary .eq left right | .binary .ne left right =>
    Renderer.isNull left || Renderer.isNull right
  | _ => false

/-- No null value is tested for equality anywhere in an expression. -/
def IsNullSafe (e : Expr) : Prop := ∀ node ∈ e.nodes, node.comparesNull = false

theorem isNullSafe_binary {op : BinaryOp} : (binary op left right).IsNullSafe ↔
    (binary op left right).comparesNull = false ∧ left.IsNullSafe ∧ right.IsNullSafe :=
  forall_nodes_binary

theorem isNullSafe_function {distinct : Bool} :
    (function name args distinct).IsNullSafe ↔ ∀ arg ∈ args, arg.IsNullSafe :=
  forall_nodes_function.trans (and_iff_right rfl)

@[simp] theorem isNullSafe_column (table : Option String) (name : String) :
    (column table name).IsNullSafe :=
  List.forall_mem_singleton.mpr rfl

@[simp] theorem isNullSafe_literal (value : Literal) : (literal value).IsNullSafe :=
  List.forall_mem_singleton.mpr rfl

@[simp] theorem isNullSafe_star (table : Option String) : (star table).IsNullSafe :=
  List.forall_mem_singleton.mpr rfl

@[simp] theorem isNullSafe_interval (count : Int) (unit : String) :
    (interval count unit).IsNullSafe :=
  List.forall_mem_singleton.mpr rfl

@[simp] theorem isNullSafe_typed (type text : String) : (typed type text).IsNullSafe :=
  List.forall_mem_singleton.mpr rfl

@[simp] theorem isNullSafe_apply :
    (apply name args).IsNullSafe ↔ ∀ arg ∈ args, arg.IsNullSafe :=
  isNullSafe_function

theorem isNullSafe_of_binary {op : BinaryOp} (eq : op ≠ .eq) (ne : op ≠ .ne)
    (l : left.IsNullSafe) (r : right.IsNullSafe) : (binary op left right).IsNullSafe := by
  refine isNullSafe_binary.mpr ⟨?_, l, r⟩
  unfold comparesNull
  split <;> simp_all

theorem isNullSafe_floorTo {epoch : Expr} (safe : epoch.IsNullSafe) (seconds : Int) :
    (floorTo epoch seconds).IsNullSafe := by
  have quotient : (binary .divide epoch (ofInt seconds)).IsNullSafe :=
    isNullSafe_of_binary nofun nofun safe (isNullSafe_literal _)
  exact isNullSafe_of_binary nofun nofun (by simpa using quotient) (isNullSafe_literal _)

end Sql.Expr

namespace Sql
variable {database : Database} {last : Bool} {value time e : Expr} {seconds : Int}

/-! ## The means of the known databases -/

theorem isNullSafe_timestamp (t : Instant) : (database.dialect.timestamp t).IsNullSafe := by
  cases database
  case clickhouse => exact Expr.isNullSafe_apply.mpr (by simp [Expr.ofInt])
  case mysql => exact Expr.isNullSafe_literal _
  all_goals exact Expr.isNullSafe_typed _ _

theorem isNullSafe_timeFloor (safe : time.IsNullSafe)
    (found : database.dialect.timeFloor time seconds = some e) : e.IsNullSafe := by
  cases database <;> cases found
  case clickhouse => simp [safe]
  all_goals exact Expr.isNullSafe_floorTo (by simp [Expr.ofString, safe]) seconds

theorem isNullSafe_pick (first : value.IsNullSafe) (second : time.IsNullSafe)
    (found : database.dialect.pick last value time = some e) : e.IsNullSafe := by
  cases database <;> cases found <;> simp [first, second]

theorem isNullSafe_join (safe : value.IsNullSafe) (found : database.dialect.join value = some e) :
    e.IsNullSafe := by
  cases database <;> cases found <;> simp [Expr.ofString, safe]

theorem isNullSafe_countDistinct (safe : value.IsNullSafe) :
    (database.dialect.countDistinct value).IsNullSafe := by
  cases database <;> exact Expr.isNullSafe_function.mpr (by simpa using safe)

end Sql

/-! ## Writing -/

namespace Renderer
variable {r : Renderer} {call : AggregateCall} {written : Sql.Expr}

theorem isNullSafe_combine (op : BinaryOp) {left right : Sql.Expr} (l : left.IsNullSafe)
    (rest : right.IsNullSafe) : (combine op left right).IsNullSafe := by
  have test : ∀ (op : Sql.BinaryOp) (negated : Bool),
      (equality op negated left right).IsNullSafe := by
    intro op negated
    unfold equality
    by_cases second : isNull right = true
    · rw [if_pos second]
      exact Sql.Expr.forall_nodes_isNull.mpr ⟨rfl, l⟩
    · by_cases first : isNull left = true
      · rw [if_neg second, if_pos first]
        exact Sql.Expr.forall_nodes_isNull.mpr ⟨rfl, rest⟩
      · rw [if_neg second, if_neg first]
        refine Sql.Expr.isNullSafe_binary.mpr ⟨?_, l, rest⟩
        unfold Sql.Expr.comparesNull
        split <;> simp_all
  cases op with
  | eq => exact test .eq false
  | ne => exact test .ne true
  | _ => exact Sql.Expr.isNullSafe_of_binary nofun nofun l rest

theorem congruent_isNullSafe :
    CongruentFor (fun _ => True) fun written _ => written.IsNullSafe where
  literal value := by cases value <;> exact Sql.Expr.isNullSafe_literal _
  combine op l rest := isNullSafe_combine op l rest
  unary op operand := Sql.Expr.forall_nodes_unary.mpr ⟨rfl, operand⟩
  inList negated operand items := by
    refine Sql.Expr.forall_nodes_inList.mpr ⟨rfl, operand, fun item listed => ?_⟩
    obtain ⟨_, -, safe⟩ := related_of_mem_left items listed
    exact safe
  apply name _ args := by
    refine Sql.Expr.isNullSafe_apply.mpr fun arg listed => ?_
    obtain ⟨_, -, safe⟩ := related_of_mem_left args listed
    exact safe

theorem isNullSafe_rowExpr {e : Expr} (ok : rowExpr e = .ok written) : written.IsNullSafe :=
  rowExpr_related congruent_isNullSafe ok (fun _ _ => trivial)
    fun name _ => Sql.Expr.isNullSafe_column none name

theorem isNullSafe_aggregate {database : Sql.Database} (dialect : r.dialect = database.dialect)
    (ok : r.aggregate call = .ok written) : written.IsNullSafe := by
  unfold aggregate at ok
  split at ok
  · obtain ⟨value, row, ok⟩ := bind_eq_ok.mp ok
    have safe := isNullSafe_rowExpr row
    have single : ∀ name, (Sql.Expr.apply name [value]).IsNullSafe :=
      fun name => Sql.Expr.isNullSafe_apply.mpr (by simpa using safe)
    have time : (Sql.Expr.named r.timeColumn).IsNullSafe := Sql.Expr.isNullSafe_column none _
    cases func : call.func <;> simp only [aggregateOf, func, dialect] at ok
    case sum | count | avg | min | max =>
      cases ok
      exact single _
    case cardinality =>
      cases ok
      exact Sql.isNullSafe_countDistinct safe
    case groupConcat => exact Sql.isNullSafe_join safe (capability_eq_ok.mp ok)
    case rate =>
      split at ok
      · cases ok
        exact Sql.Expr.isNullSafe_of_binary (by decide) (by decide) (single _)
          (Sql.Expr.isNullSafe_literal _)
      · cases ok
    case first | last => exact Sql.isNullSafe_pick safe time (capability_eq_ok.mp ok)
  · split at ok
    · cases ok
      exact Sql.Expr.isNullSafe_apply.mpr (by simp)
    · cases ok

theorem isNullSafe_windowCall {partitionBy : List Sql.Expr}
    (parts : ∀ part ∈ partitionBy, part.IsNullSafe)
    (ok : r.windowCall call partitionBy = .ok written) : written.IsNullSafe := by
  unfold windowCall at ok
  split at ok
  · obtain ⟨value, row, rfl⟩ := bind_pure_eq_ok.mp ok
    have picked : (Sql.Expr.apply "first_value" [value]).IsNullSafe :=
      Sql.Expr.isNullSafe_apply.mpr (by simpa using isNullSafe_rowExpr row)
    refine Sql.Expr.forall_nodes_window.mpr ⟨rfl, picked, parts, List.forall_mem_singleton.mpr ?_⟩
    exact Sql.Expr.isNullSafe_column none _
  · cases ok

end Renderer

theorem StageBuilder.keeps_isNullSafe {b : StageBuilder} {database : Sql.Database}
    (dialect : b.renderer.dialect = database.dialect) :
    b.Keeps (fun _ => True) Sql.Expr.IsNullSafe where
  congruent := Renderer.congruent_isNullSafe
  named := Sql.Expr.isNullSafe_column none
  aggregate _ _ _ := Renderer.isNullSafe_aggregate dialect
  window _ _ _ parts _ := Renderer.isNullSafe_windowCall parts
  bucket := by
    intro e start
    rcases bucketStart?_eq_ok start with
      ⟨-, absent⟩ | ⟨-, time, step, floor, -, -, floored, same⟩
    · cases absent
    · cases same
      rw [dialect] at floored
      exact Sql.isNullSafe_timeFloor (Sql.Expr.isNullSafe_column none _) floored
  time := by
    intro e member
    unfold timeConditions at member
    split at member
    · cases member
    · have bound : ∀ (op : Sql.BinaryOp) (column : String) (t : Instant), op ≠ .eq → op ≠ .ne →
          (Sql.Expr.binary op (.named column) (b.renderer.dialect.timestamp t)).IsNullSafe := by
        intro op column t eq ne
        rw [dialect]
        exact Sql.Expr.isNullSafe_of_binary eq ne (Sql.Expr.isNullSafe_column none _)
          (Sql.isNullSafe_timestamp t)
      simp only [List.mem_cons, List.not_mem_nil, or_false] at member
      rcases member with rfl | rfl <;> exact bound _ _ _ nofun nofun

/-- No clause of an accepted query compares anything with a null value. -/
theorem Compiler.Accepts.isNullSafe {c : Compiler} {query : Query} {plan : Plan}
    {seconds : Option Int} {a : Analysis} {carried : List String} {stages : List Stage}
    {orderBy : List (Sql.SortKey Sql.Expr)} {database : Sql.Database}
    (accepts : c.Accepts query plan seconds a carried stages orderBy)
    (dialect : c.dialect = database.dialect) :
    ∀ stage ∈ plan.stages, ∀ e ∈ stage.exprs, e.IsNullSafe := by
  have calls : (c.builder query seconds a carried).Calls fun _ => True :=
    ⟨fun _ _ _ _ _ _ => trivial, fun _ _ _ _ => trivial, fun _ _ _ _ => trivial,
      fun _ _ _ _ => trivial⟩
  exact accepts.keeps calls (StageBuilder.keeps_isNullSafe dialect)

end Rollup
