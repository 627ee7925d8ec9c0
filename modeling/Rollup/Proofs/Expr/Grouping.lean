import Rollup.Proofs.Expr.Printer

/-! Which parentheses a printed expression needs.

Every expression holds together with a strength, and every place in an expression asks for one. The
printer puts an operand in parentheses by one rule for binary operators, which leaves out the
membership tests and lets a comparison stand on the left of another. An expression without such an
operand is derived from the tokens it is printed in. Any other is printed with fewer parentheses
than a text of it can have, so its tokens derive something else or nothing at all.
-/

set_option autoImplicit false

namespace Rollup

/-! ## Strengths -/

/-- The strength that the left operand must have: comparisons do not chain. -/
def BinaryOp.leftStrength (op : BinaryOp) : Nat :=
  if op.strength = Expr.comparisonStrength then op.strength + 1 else op.strength

theorem BinaryOp.strength_bounds (op : BinaryOp) : 1 ≤ op.strength ∧ op.strength ≤ 6 := by
  cases op <;> decide

theorem BinaryOp.isArithmetic_eq (op : BinaryOp) :
    op.isArithmetic = decide (Expr.comparisonStrength < op.strength) := by
  cases op <;> rfl

namespace Expr

/-- How strongly an expression holds together without parentheses around it. -/
def strength : Expr → Nat
  | .binary op _ _ => op.strength
  | .unary .not _ => notStrength
  | .inList .. => comparisonStrength
  | _ => signStrength

theorem strength_pos (e : Expr) : 1 ≤ e.strength := by
  cases e with
  | binary op => exact op.strength_bounds.1
  | unary op operand => cases op <;> exact Nat.le_of_ble_eq_true rfl
  | _ => exact Nat.le_of_ble_eq_true rfl

def Category.strength : Category → Nat
  | .atom => 8
  | .signed => 7
  | .chain .product => 6
  | .chain .sum => 5
  | .compare => 4
  | .not => 3
  | .chain .and => 2
  | .chain .or => 1

def Category.ofStrength : Nat → Category
  | 8 => .atom
  | 7 => .signed
  | 6 => .chain .product
  | 5 => .chain .sum
  | 4 => .compare
  | 3 => .not
  | 2 => .chain .and
  | _ => .chain .or

def Category.wider : Category → Category
  | .atom => .signed
  | .signed => .chain .product
  | .chain .product => .chain .sum
  | .chain .sum => .compare
  | .compare => .not
  | .not => .chain .and
  | .chain .and => .chain .or
  | .chain .or => .chain .or

theorem ofStrength_strength (category : Category) :
    Category.ofStrength category.strength = category := by
  cases category with
  | chain level => cases level <;> rfl
  | _ => rfl

theorem strength_wider (category : Category) :
    category.wider.strength = max 1 (category.strength - 1) := by
  cases category with
  | chain level => cases level <;> rfl
  | _ => rfl

theorem strength_operand (level : Chain) :
    level.operand.strength = (Category.chain level).strength + 1 := by
  cases level <;> rfl

section
variable {category other : Category} {tokens : List Token} {e : Expr}

theorem Derives.wider (derives : Derives category tokens e) : Derives category.wider tokens e := by
  cases category with
  | atom => exact derives.unsigned
  | compare => exact derives.positive
  | chain level =>
    cases level with
    | or => exact derives
    | sum => exact derives.sum
    | and => exact @Derives.operand .or _ _ derives
    | product => exact @Derives.operand .sum _ _ derives
  | signed => exact @Derives.operand .product _ _ derives
  | not => exact @Derives.operand .and _ _ derives

theorem Derives.widen (derives : Derives category tokens e)
    (looser : other.strength ≤ category.strength) : Derives other tokens e := by
  have positive : 1 ≤ other.strength := by
    cases other with
    | chain level => cases level <;> decide
    | _ => decide
  obtain ⟨n, difference⟩ := Nat.exists_eq_add_of_le looser
  clear looser
  induction n generalizing category with
  | zero =>
    have same := congrArg Category.ofStrength difference
    rw [Nat.add_zero, ofStrength_strength, ofStrength_strength] at same
    exact same ▸ derives
  | succ n ih =>
    apply ih derives.wider
    rw [strength_wider]
    omega

end

/-! ## Operands without parentheses -/

def isMember : Expr → Bool
  | .inList .. => true
  | _ => false

/-- A comparison or a membership test. -/
def isTest (e : Expr) : Bool := e.strength == comparisonStrength

/-- Whether an operand is printed without the parentheses that it needs. -/
def losesGrouping : Expr → Bool
  | .binary op left right =>
    if op.strength = comparisonStrength then left.isTest || right.isMember
    else op.isArithmetic && (left.isMember || right.isMember)
  | .unary .neg operand => operand.isMember
  | .inList operand _ _ => operand.isTest
  | _ => false

def KeepsGrouping (e : Expr) : Prop := ∀ node ∈ e.nodes, node.losesGrouping = false

/-- Whether an operand without parentheses is too weak for its place. -/
def exposed (place : Nat) (parens : Bool) (operand : Expr) : Bool :=
  !parens && decide (operand.strength < place)

section
variable {e : Expr} {op : BinaryOp}

theorem strength_of_isMember (member : e.isMember = true) : e.strength = comparisonStrength := by
  cases e with
  | inList => rfl
  | _ => cases member

theorem needsParens_left {outer : Nat} (within : outer ≤ signStrength) :
    e.needsParens outer false = true ↔ e.isMember = false ∧ e.strength < outer := by
  have strong : ¬signStrength < outer := Nat.not_lt.mpr within
  cases e with
  | unary op => cases op <;> simp [needsParens, isMember, strength, strong]
  | _ => simp [needsParens, isMember, strength, strong]

theorem needsParens_right (op : BinaryOp) :
    e.needsParens op.strength true = true ↔ e.isMember = false ∧ e.strength ≤ op.strength := by
  have bounds := op.strength_bounds
  have between : op.strength ≠ notStrength := by cases op <;> decide
  have weaker : ¬signStrength ≤ op.strength := Nat.not_le.mpr (Nat.lt_succ_of_le bounds.2)
  cases e with
  | binary => simp [needsParens, isMember, strength, Nat.le_iff_lt_or_eq]
  | unary inner =>
    cases inner <;>
      simp [needsParens, isMember, strength, weaker, Nat.lt_iff_le_and_ne, between.symm]
  | _ => simp [needsParens, isMember, strength, weaker]

theorem exposed_left (op : BinaryOp) (left : Expr) :
    exposed op.leftStrength (left.needsParens op.strength false) left =
      if op.strength = comparisonStrength then left.isTest
      else op.isArithmetic && left.isMember := by
  have bounds := op.strength_bounds
  have sign : signStrength = 7 := rfl
  have member := strength_of_isMember (e := left)
  have within : op.strength ≤ signStrength := by omega
  have parens := needsParens_left (e := left) within
  rw [exposed, op.isArithmetic_eq, isTest, BinaryOp.leftStrength]
  grind

theorem exposed_right (op : BinaryOp) (right : Expr) :
    exposed (op.strength + 1) (right.needsParens op.strength true) right =
      (decide (comparisonStrength ≤ op.strength) && right.isMember) := by
  have member := strength_of_isMember (e := right)
  have parens := needsParens_right (e := right) op
  rw [exposed]
  grind

theorem losesGrouping_binary (op : BinaryOp) (left right : Expr) :
    (binary op left right).losesGrouping =
      (exposed op.leftStrength (left.needsParens op.strength false) left ||
        exposed (op.strength + 1) (right.needsParens op.strength true) right) := by
  rw [exposed_left, exposed_right, losesGrouping, op.isArithmetic_eq]
  grind

theorem losesGrouping_neg (operand : Expr) : (unary .neg operand).losesGrouping =
    exposed signStrength (operand.needsParens signStrength false) operand := by
  have member := strength_of_isMember (e := operand)
  have parens := needsParens_left (e := operand) (Nat.le_refl signStrength)
  have weaker : comparisonStrength < signStrength := by decide
  rw [exposed, losesGrouping]
  grind

theorem losesGrouping_not (operand : Expr) : (unary .not operand).losesGrouping =
    exposed notStrength (operand.needsParens notStrength false) operand := by
  have member := strength_of_isMember (e := operand)
  have within : notStrength ≤ signStrength := by decide
  have parens := needsParens_left (e := operand) within
  have weaker : notStrength < comparisonStrength := by decide
  have none_ : (unary .not operand).losesGrouping = false := rfl
  rw [exposed, none_]
  grind

theorem losesGrouping_inList (operand : Expr) (items : List Expr) (negated : Bool) :
    (inList operand items negated).losesGrouping =
      exposed (comparisonStrength + 1) (operand.needsParens comparisonStrength false) operand := by
  have member := strength_of_isMember (e := operand)
  have within : comparisonStrength ≤ signStrength := by decide
  have parens := needsParens_left (e := operand) within
  rw [exposed, losesGrouping, isTest]
  grind

end

/-! ## Parentheses that are kept -/

section
variable {e : Expr} {category : Category} {op : BinaryOp}

theorem KeepsGrouping.of_mem {part : Expr} (keeps : e.KeepsGrouping) (member : part ∈ e.nodes) :
    part.KeepsGrouping :=
  fun node within => keeps node (nodes_subset member within)

theorem chain_of_strength (other : op.strength ≠ comparisonStrength) :
    ∃ level : Chain, op ∈ level.operators ∧ (Category.chain level).strength = op.strength := by
  cases op with
  | or => exact ⟨.or, by decide, rfl⟩
  | and => exact ⟨.and, by decide, rfl⟩
  | add | sub => exact ⟨.sum, by decide, rfl⟩
  | mul | div | mod => exact ⟨.product, by decide, rfl⟩
  | _ => exact absurd rfl other

theorem mem_comparisons (is : op.strength = comparisonStrength) : op ∈ comparisons := by
  cases op <;> first | decide | cases is

theorem Literal.derives_written {value : Literal} (signed : value.IsSigned) :
    Derives .signed value.written (.literal value) := by
  unfold Literal.written
  split
  · rename_i n
    have negated : negate (.literal (.int (n + 1))) = .literal (.int (.negSucc n)) := rfl
    exact negated ▸ (Derives.literal (.int (n + 1))).unsigned.negative
  · rename_i code
    exact (Derives.literal (.float (.finite false code))).unsigned.negative
  · exact (Derives.literal value).unsigned

theorem derives_grouped (category : Category) {place : Nat} {parens : Bool}
    (inner : ∀ category : Category, category.strength ≤ e.strength →
      Derives category e.written e)
    (kept : exposed place parens e = false) (asked : category.strength ≤ place) :
    Derives category (grouped parens e.written) e := by
  cases parens with
  | true =>
    have within : category.strength ≤ Category.strength .atom := by
      cases category with
      | chain level => cases level <;> exact Nat.le_of_ble_eq_true rfl
      | _ => exact Nat.le_of_ble_eq_true rfl
    exact (Derives.parentheses (inner (.chain .or) e.strength_pos)).widen within
  | false =>
    have strong : place ≤ e.strength := by simpa [exposed] using kept
    exact inner category (Nat.le_trans asked strong)

theorem derives_items {items : List Expr}
    (each : ∀ item ∈ items, ∀ category : Category, category.strength ≤ item.strength →
      Derives category item.written item) :
    ∀ part ∈ writtenItems items, Derives (.chain .or) part.1 part.2 := by
  rw [writtenItems_eq, List.forall_mem_map]
  exact fun item member => each item member (.chain .or) item.strength_pos

theorem map_snd_writtenItems (items : List Expr) : (writtenItems items).map (·.2) = items := by
  simp [writtenItems_eq, Function.comp_def]

theorem writtenItems_ne_nil {items : List Expr} (nonempty : items ≠ []) :
    writtenItems items ≠ [] := by
  simpa [writtenItems_eq] using nonempty

theorem Printable.derives (printable : Printable e) (keeps : e.KeepsGrouping) :
    ∀ category : Category, category.strength ≤ e.strength → Derives category e.written e := by
  induction printable with
  | literal signed => exact fun category asked => (Literal.derives_written signed).widen asked
  | column plain => exact fun category asked => (Derives.column _).widen (Nat.le_succ_of_le asked)
  | placeholder plain =>
    exact fun category asked => (Derives.placeholder _).widen (Nat.le_succ_of_le asked)
  | @binary op left right first second ihl ihr =>
    have kept := keeps _ (self_mem_nodes _)
    rw [losesGrouping_binary, Bool.or_eq_false_iff] at kept
    have ihl := ihl (keeps.of_mem (by simp))
    have ihr := ihr (keeps.of_mem (by simp))
    intro category asked
    by_cases test : op.strength = comparisonStrength
    · have place : op.leftStrength = op.strength + 1 := if_pos test
      have sum : (Category.chain .sum).strength = op.strength + 1 := by rw [test]; rfl
      have first := derives_grouped (.chain .sum) ihl kept.1 (by omega)
      have second := derives_grouped (.chain .sum) ihr kept.2 sum.le
      have whole := Derives.compare (mem_comparisons test) first second
      exact whole.widen (Nat.le_trans asked test.le)
    · obtain ⟨level, allowed, same⟩ := chain_of_strength test
      have place : op.leftStrength = op.strength := if_neg test
      have first := derives_grouped (.chain level) ihl kept.1 (by omega)
      have second := derives_grouped level.operand ihr kept.2
        (by rw [strength_operand]; omega)
      exact (Derives.binary allowed first second).widen (Nat.le_trans asked same.ge)
  | @not operand inner ih =>
    have kept := keeps _ (self_mem_nodes _)
    rw [losesGrouping_not] at kept
    have first := derives_grouped .not (ih (keeps.of_mem (by simp))) kept
      (Nat.le_refl _)
    exact fun category asked => first.not.widen asked
  | @neg operand inner apart ih =>
    have kept := keeps _ (self_mem_nodes _)
    rw [losesGrouping_neg] at kept
    have first := derives_grouped .signed (ih (keeps.of_mem (by simp))) kept
      (Nat.le_refl _)
    have second := first.negative
    rw [apart] at second
    exact fun category asked => second.widen asked
  | @inList operand items negated inner nonempty each ih ihs =>
    have kept := keeps _ (self_mem_nodes _)
    rw [losesGrouping_inList] at kept
    have first := derives_grouped (.chain .sum) (ih (keeps.of_mem (by simp))) kept
      (Nat.le_refl _)
    have parts := derives_items fun item member => ihs item member
      (keeps.of_mem (mem_nodes_inList.mpr (.inr (.inr ⟨item, member, self_mem_nodes item⟩))))
    have whole := Derives.member negated first (writtenItems_ne_nil nonempty) parts
    rw [map_snd_writtenItems] at whole
    exact fun category asked => whole.widen asked
  | @call name args plain each ih =>
    intro category asked
    cases args with
    | nil => exact (Derives.callNothing name).widen (Nat.le_succ_of_le asked)
    | cons arg rest =>
      have parts := derives_items fun item member => ih item member
        (keeps.of_mem (mem_nodes_call.mpr (.inr ⟨item, member, self_mem_nodes item⟩)))
      have whole := Derives.call name (writtenItems_ne_nil (List.cons_ne_nil arg rest)) parts
      rw [map_snd_writtenItems] at whole
      exact whole.widen (Nat.le_succ_of_le asked)

end

end Expr
end Rollup
