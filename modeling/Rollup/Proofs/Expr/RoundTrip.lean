import Mathlib
import Rollup.Proofs.Expr.Equality
import Rollup.Proofs.Expr.Grouping

/-! What a printed expression is read as.

The opening parentheses of a text are counted: those of the lists and calls of the expression that
it is read as, and one for every operand that is weaker than its place asks for. An expression that
is printed without some of them is read as another, or not at all; any other one is read as itself.
-/

set_option autoImplicit false

namespace Rollup.Expr

/-! ## Opening parentheses -/

def openings (tokens : List Token) : Nat := tokens.count (.symbol .leftParen)

section
variable {tokens other : List Token}

@[simp] theorem openings_append :
    openings (tokens ++ other) = openings tokens + openings other := List.count_append

@[simp] theorem openings_enclosed : openings (enclosed tokens) = openings tokens + 1 := by
  simp [openings, enclosed]

@[simp] theorem openings_negation (negated : Bool) : openings (negation negated) = 0 := by
  cases negated <;> rfl

@[simp] theorem openings_spelling (op : BinaryOp) : openings op.spelling = 0 := by
  cases op <;> rfl

theorem openings_cons {token : Token} (other : token ≠ .symbol .leftParen) :
    openings (token :: tokens) = openings tokens := List.count_cons_of_ne other

theorem openings_commas (parts : List (List Token × Expr)) :
    openings (commas parts) = (parts.map fun part => openings part.1).sum := by
  cases parts with
  | nil => rfl
  | cons part others =>
    rw [commas, Reader.listed_cons, openings_append, List.map_cons, List.sum_cons]
    congr 1
    induction others with
    | nil => rfl
    | cons next others ih =>
      rw [Reader.continued_cons, openings_cons (by decide), openings_append, ih, List.map_cons,
        List.sum_cons]

end

def enclosing (place : Nat) (e : Expr) : Nat := if e.strength < place then 1 else 0

mutual

/-- The opening parentheses of an expression, without any more than it needs. -/
def opened : Expr → Nat
  | .binary op left right =>
    enclosing op.leftStrength left + opened left +
      (enclosing (op.strength + 1) right + opened right)
  | .unary .not operand => enclosing notStrength operand + opened operand
  | .unary .neg operand => enclosing signStrength operand + opened operand
  | .inList operand items _ =>
    enclosing (comparisonStrength + 1) operand + opened operand + (openedItems items + 1)
  | .call _ args => openedItems args + 1
  | _ => 0

def openedItems : List Expr → Nat
  | [] => 0
  | item :: rest => opened item + openedItems rest

end

theorem openedItems_eq (items : List Expr) : openedItems items = (items.map opened).sum := by
  induction items with
  | nil => rfl
  | cons item rest ih => rw [openedItems, ih, List.map_cons, List.sum_cons]

section
variable {e : Expr} {category : Category} {tokens : List Token}

theorem enclosing_eq_zero {place : Nat} (strong : place ≤ e.strength) : enclosing place e = 0 :=
  if_neg (Nat.not_lt.mpr strong)

theorem enclosing_le_one (place : Nat) : enclosing place e ≤ 1 := by
  unfold enclosing
  split_ifs <;> omega

theorem opened_negate_le (operand : Expr) :
    (negate operand).opened ≤ enclosing signStrength operand + operand.opened := by
  unfold negate
  split
  · exact Nat.zero_le _
  · exact Nat.zero_le _
  · exact Nat.le_refl _

theorem strength_negate (operand : Expr) : (negate operand).strength = signStrength := by
  unfold negate
  split <;> rfl

theorem strength_of_mem_operators {level : Chain} {op : BinaryOp}
    (allowed : op ∈ level.operators) :
    op.strength = (Category.chain level).strength ∧ op.leftStrength = op.strength := by
  cases level <;>
    simp only [Chain.operators, List.mem_cons, List.not_mem_nil, or_false] at allowed <;>
    rcases allowed with rfl | rfl | rfl <;> exact ⟨rfl, rfl⟩

theorem strength_of_mem_comparisons {op : BinaryOp} (allowed : op ∈ comparisons) :
    op.strength = comparisonStrength ∧ op.leftStrength = comparisonStrength + 1 := by
  cases op <;> first | exact ⟨rfl, rfl⟩ | simp [comparisons] at allowed

theorem openedItems_le {parts : List (List Token × Expr)}
    (each : ∀ part ∈ parts, part.2.opened ≤ openings part.1) :
    openedItems (parts.map (·.2)) ≤ openings (commas parts) := by
  rw [openedItems_eq, openings_commas, List.map_map]
  exact List.sum_le_sum each

/-- A text of an expression has no fewer parentheses than the expression needs. -/
theorem Derives.opened_le (derives : Derives category tokens e) :
    ∀ place, place ≤ category.strength → place ≤ signStrength →
      enclosing place e + e.opened ≤ openings tokens := by
  induction derives with
  | literal | placeholder | column =>
    intro place _ within
    rw [enclosing_eq_zero within]
    exact Nat.zero_le _
  | @call name parts nonempty each ih =>
    intro place _ within
    have items := openedItems_le fun part member =>
      (Nat.le_add_left _ _).trans (ih part member 1 (Nat.le_refl 1) (by decide))
    rw [enclosing_eq_zero within, openings_cons (by simp), openings_enclosed, opened, Nat.zero_add]
    exact Nat.succ_le_succ items
  | callNothing | callStar =>
    intro place _ within
    rw [enclosing_eq_zero within]
    exact Nat.le_refl 1
  | @parentheses tokens e inner ih =>
    intro place _ _
    have inside := ih 1 (Nat.le_refl 1) (by decide)
    have around := enclosing_le_one (e := e) place
    rw [openings_enclosed]
    omega
  | unsigned inner ih => exact fun place _ within => ih place (within.trans (by decide)) within
  | @negative tokens e inner ih =>
    intro place _ within
    have bound := opened_negate_le e
    have inside := ih signStrength (Nat.le_refl _) (Nat.le_refl _)
    rw [enclosing_eq_zero (within.trans (strength_negate e).ge), openings_cons (by decide)]
    omega
  | operand inner ih =>
    intro place asked
    exact ih place (by rw [strength_operand]; omega)
  | @binary level op left right l r allowed first second ihl ihr =>
    intro place asked _
    obtain ⟨same, onLeft⟩ := strength_of_mem_operators allowed
    have bounds := op.strength_bounds
    have sign : signStrength = 7 := rfl
    have left := ihl op.leftStrength (by omega) (by omega)
    have right := ihr (op.strength + 1) (by rw [strength_operand]; omega) (by omega)
    rw [enclosing_eq_zero (show place ≤ op.strength by omega)]
    simp only [opened, openings_append, openings_spelling]
    omega
  | sum inner ih => exact fun place asked => ih place (Nat.le_succ_of_le asked)
  | @compare op left right l r allowed first second ihl ihr =>
    intro place asked _
    obtain ⟨same, onLeft⟩ := strength_of_mem_comparisons allowed
    have left := ihl op.leftStrength (by rw [onLeft]; exact Nat.le_refl 5) (by rw [onLeft]; decide)
    have right := ihr (op.strength + 1) (by rw [same]; exact Nat.le_refl 5) (by rw [same]; decide)
    rw [enclosing_eq_zero (show place ≤ op.strength from asked.trans same.ge)]
    simp only [opened, openings_append, openings_spelling]
    omega
  | @member tokens e parts negated first nonempty each ihl ih =>
    intro place asked _
    have operand := ihl (comparisonStrength + 1) (Nat.le_refl 5) (by decide)
    have items := openedItems_le fun part member =>
      (Nat.le_add_left _ _).trans (ih part member 1 (Nat.le_refl 1) (by decide))
    rw [enclosing_eq_zero asked]
    have word : Token.member ≠ .symbol .leftParen := by decide
    simp only [opened, openings_append, openings_negation, openings_enclosed, openings_cons word]
    omega
  | @null tokens e negated first ih =>
    intro place asked _
    have operand := ih (comparisonStrength + 1) (Nat.le_refl 5) (by decide)
    have alone : openings (.is :: negation negated) + openings [.literal .null] = 0 := by
      cases negated <;> rfl
    rw [openings_append, openings_append, Nat.add_assoc, alone]
    cases negated <;>
    · rw [enclosing_eq_zero asked, Nat.zero_add]
      exact operand
  | positive inner ih => exact fun place asked => ih place (Nat.le_succ_of_le asked)
  | not inner ih =>
    intro place asked within
    have operand := ih notStrength (Nat.le_refl 3) (by decide)
    rw [enclosing_eq_zero asked, openings_cons (by decide), opened]
    omega

end

/-! ## Equal expressions -/

section
variable {a b : Expr}

theorem openedItems_congr {as bs : List Expr}
    (each : List.Forall₂ (fun a b => a.opened = b.opened) as bs) :
    openedItems as = openedItems bs := by
  rw [openedItems_eq, openedItems_eq, map_eq_iff_related.mpr each]

theorem SameTree.opened_eq (same : SameTree a b) :
    a.strength = b.strength ∧ a.opened = b.opened := by
  induction same with
  | literal | column | placeholder => exact ⟨rfl, rfl⟩
  | binary _ _ first second =>
    exact ⟨rfl, by simp only [opened, enclosing, first, second]⟩
  | @unary op _ _ _ inner =>
    cases op <;> exact ⟨rfl, by simp only [opened, enclosing, inner]⟩
  | inList _ _ inner each =>
    have listed := openedItems_congr (each.imp fun _ _ ⟨_, found⟩ => found.2)
    exact ⟨rfl, by simp only [opened, enclosing, inner, listed]⟩
  | call _ each =>
    have listed := openedItems_congr (each.imp fun _ _ ⟨_, found⟩ => found.2)
    exact ⟨rfl, by simp only [opened, listed]⟩

end

/-! ## Parentheses that are printed -/

section
variable {e : Expr}

/-- The number of operands that are printed without the parentheses they need. -/
def lost (e : Expr) : Nat := e.nodes.countP losesGrouping

theorem keepsGrouping_iff : e.KeepsGrouping ↔ e.lost = 0 := by
  simp [KeepsGrouping, lost, List.countP_eq_zero]

theorem lost_binary (op : BinaryOp) (left right : Expr) : (binary op left right).lost =
    left.lost + right.lost + (binary op left right).losesGrouping.toNat := by
  rw [lost, nodes_binary, List.countP_cons, List.countP_append]
  cases (binary op left right).losesGrouping <;> rfl

theorem lost_unary (op : UnaryOp) (operand : Expr) :
    (unary op operand).lost = operand.lost + (unary op operand).losesGrouping.toNat := by
  have nodes : (unary op operand).nodes = unary op operand :: operand.nodes := rfl
  rw [lost, nodes, List.countP_cons]
  cases (unary op operand).losesGrouping <;> rfl

theorem lost_inList (operand : Expr) (items : List Expr) (negated : Bool) :
    (inList operand items negated).lost = operand.lost + (items.map lost).sum +
      (inList operand items negated).losesGrouping.toNat := by
  rw [lost, nodes_inList, List.countP_cons, List.countP_append, List.countP_flatMap]
  cases (inList operand items negated).losesGrouping <;> rfl

theorem lost_call (name : String) (args : List Expr) :
    (call name args).lost = (args.map lost).sum := by
  rw [lost, nodes_call, List.countP_cons, List.countP_flatMap]
  rfl

/-- An operand in parentheses needs them, and one without them loses those that it needs. -/
theorem openings_grouped (place : Nat) (parens : Bool) {operand : Expr}
    (needed : parens = true → operand.strength < place)
    (inner : openings operand.written + operand.lost ≤ operand.opened) :
    openings (grouped parens operand.written) + operand.lost +
      (exposed place parens operand).toNat ≤ enclosing place operand + operand.opened := by
  cases parens with
  | true =>
    have around : enclosing place operand = 1 := if_pos (needed rfl)
    simp [grouped, exposed, around]
    omega
  | false =>
    have around : (exposed place false operand).toNat = enclosing place operand := by
      unfold exposed enclosing
      by_cases weak : operand.strength < place <;> simp [weak]
    rw [around, grouped, if_neg Bool.false_ne_true]
    omega

theorem openings_items {items : List Expr}
    (each : ∀ item ∈ items, openings item.written + item.lost ≤ item.opened) :
    openings (commas (writtenItems items)) + (items.map lost).sum ≤ openedItems items := by
  rw [openings_commas, writtenItems_eq, openedItems_eq, List.map_map, ← List.sum_map_add]
  exact List.sum_le_sum each

theorem openings_written (e : Expr) : openings e.written + e.lost ≤ e.opened := by
  induction e with
  | literal value =>
    have none_ : openings value.written = 0 := by
      unfold Literal.written
      split <;> rfl
    exact none_.le
  | column | placeholder => exact Nat.le_refl 0
  | binary op left right ihl ihr =>
    have bounds := op.strength_bounds
    have sign : signStrength = 7 := rfl
    have first := openings_grouped op.leftStrength
      (left.needsParens op.strength false) (fun parens => by
        have weak := ((needsParens_left (by omega)).mp parens).2
        unfold BinaryOp.leftStrength
        split <;> omega) ihl
    have second := openings_grouped (op.strength + 1)
      (right.needsParens op.strength true) (fun parens =>
        Nat.lt_succ_of_le ((needsParens_right op).mp parens).2) ihr
    rw [lost_binary, losesGrouping_binary]
    simp only [written, opened, openings_append, openings_spelling]
    have either : ∀ a b : Bool, (a || b).toNat ≤ a.toNat + b.toNat := by decide
    have either := either (exposed op.leftStrength (left.needsParens op.strength false) left)
      (exposed (op.strength + 1) (right.needsParens op.strength true) right)
    omega
  | unary op operand ih =>
    rw [lost_unary]
    cases op with
    | not =>
      have inner := openings_grouped notStrength
        (operand.needsParens notStrength false)
        (fun parens => ((needsParens_left (by decide)).mp parens).2) ih
      rw [losesGrouping_not, written, openings_cons (by decide), opened]
      omega
    | neg =>
      have inner := openings_grouped signStrength
        (operand.needsParens signStrength false)
        (fun parens => ((needsParens_left (Nat.le_refl _)).mp parens).2) ih
      rw [losesGrouping_neg, written, openings_cons (by decide), opened]
      omega
  | inList operand items negated ih ihs =>
    have inner := openings_grouped (comparisonStrength + 1)
      (operand.needsParens comparisonStrength false)
      (fun parens => Nat.lt_succ_of_lt ((needsParens_left (by decide)).mp parens).2) ih
    have listed := openings_items ihs
    rw [lost_inList, losesGrouping_inList, written, openings_append, openings_append,
      openings_negation, openings_cons (by decide), openings_enclosed, opened]
    omega
  | call name args ihs =>
    have listed := openings_items ihs
    rw [lost_call, written, openings_cons (by simp), openings_enclosed, opened]
    omega

end

/-! ## Expressions that are read -/

section
variable {e : Expr} {category : Category} {tokens : List Token}

theorem Literal.isSigned_of_isPlain {value : Literal} (plain : value.IsPlain) : value.IsSigned := by
  cases value with
  | int n =>
    have least : -Number.maxWord ≤ 0 := by decide
    exact ⟨least.trans plain.1, plain.2⟩
  | float x =>
    obtain ⟨code, rfl⟩ := plain
    rfl
  | _ => exact plain

theorem Printable.negate (printable : Printable e) : Printable (negate e) := by
  cases printable with
  | @literal value signed =>
    cases value with
    | int n =>
      have bounds : -Number.maxWord ≤ n ∧ n ≤ Number.maxWord := signed
      exact .literal ⟨by omega, by omega⟩
    | float x =>
      refine .literal ?_
      cases x with
      | finite => rfl
      | _ => cases signed
    | _ => exact .neg (.literal signed) rfl
  | column plain => exact .neg (.column plain) rfl
  | placeholder plain => exact .neg (.placeholder plain) rfl
  | binary op first second => exact .neg (.binary op first second) rfl
  | not inner => exact .neg (.not inner) rfl
  | neg inner apart => exact .neg (.neg inner apart) rfl
  | inList negated inner nonempty each => exact .neg (.inList negated inner nonempty each) rfl
  | call plain each => exact .neg (.call plain each) rfl

theorem Derives.printable (derives : Derives category tokens e)
    (plain : ∀ token ∈ tokens, token.IsPlain) : Printable e := by
  induction derives with
  | literal value => exact .literal (Literal.isSigned_of_isPlain (plain _ List.mem_cons_self))
  | placeholder name => exact .placeholder (plain _ List.mem_cons_self)
  | column name => exact .column (plain _ List.mem_cons_self)
  | call name nonempty each ih =>
    refine .call (plain _ List.mem_cons_self) (forall_items ih fun token member => ?_)
    exact plain token (by simp [enclosed, member])
  | callNothing name | callStar name => exact .call (plain _ List.mem_cons_self) (by simp)
  | parentheses inner ih => exact ih fun token member => plain token (by simp [enclosed, member])
  | unsigned inner ih | operand inner ih | sum inner ih | positive inner ih => exact ih plain
  | negative inner ih => exact (ih fun token member => plain token (by simp [member])).negate
  | binary allowed first second ihl ihr | compare allowed first second ihl ihr =>
    exact .binary _ (ihl fun token member => plain token (by simp [member]))
      (ihr fun token member => plain token (by simp [member]))
  | member negated first nonempty each ihl ih =>
    have items := forall_items ih fun token member => plain token (by simp [enclosed, member])
    exact .inList negated (ihl fun token member => plain token (by simp [member]))
      (by simpa using nonempty) items
  | null negated first ih =>
    exact .binary _ (ih fun token member => plain token (by simp [member])) (.literal trivial)
  | not inner ih => exact .not (ih fun token member => plain token (by simp [member]))

theorem printable_of_parse {text : String} (bare : Token.IsBare text) (ok : parse text = .ok e) :
    Printable e := by
  obtain ⟨tokens, found, accepted⟩ := parse_eq_ok.mp ok
  refine (derives_of_ofTokens accepted).printable ?_
  rw [List.forall_mem_map]
  exact Token.isPlain_of_all bare found

end

/-! ## Reading what is printed -/

/-- An expression that is read in a text without quoted names and sizes is printed as a text of its
own exactly if no comparison or membership test stands on the left of a comparison or a membership
test, and no membership test on the right of a comparison, at a sign or in arithmetic. Any other is
printed as a text of another expression, or of none. -/
theorem printed_reads {text : String} {e : Expr} (ok : parse text = .ok e)
    (bare : Token.IsBare text) (back : e.ReadsBack) :
    ((∃ again, parse e.render = .ok again ∧ again.same e = true) ↔ e.KeepsGrouping) ∧
    (e.KeepsGrouping → parse e.render = .ok e) := by
  have printable := printable_of_parse bare ok
  have reads : e.KeepsGrouping → parse e.render = .ok e := fun keeps =>
    (parse_render printable back).mpr (printable.derives keeps (.chain .or) e.strength_pos)
  refine ⟨⟨?_, fun keeps => ⟨e, reads keeps, same_refl e⟩⟩, reads⟩
  rintro ⟨again, read, equal⟩
  have derives := (parse_render printable back).mp read
  have least := derives.opened_le 1 (Nat.le_refl 1) (by decide)
  have printed := openings_written e
  rw [(same_iff.mp equal).opened_eq.2] at least
  exact keepsGrouping_iff.mpr (by omega)

/-- `2.0 * (x + 1)` -/
def doubled : Expr :=
  .binary .mul (.literal (.float (.finite false ⟨4611686018427387904, by decide⟩)))
    (.binary .add (.column "x") (.literal (.int 1)))

def doubledTokens : List Token :=
  [.literal (.float (.finite false ⟨4611686018427387904, by decide⟩)), .symbol .star,
    .symbol .leftParen, .name "x", .symbol .plus, .literal (.int 1), .symbol .rightParen]

theorem parse_doubled : parse "2.0 * (x + 1)" = .ok doubled := by
  have cut : (Token.all "2.0 * (x + 1)".toList).toOption.map (·.map (·.value)) =
      some doubledTokens := by decide +kernel
  have read : ofTokens doubledTokens = .ok doubled := by cbv
  obtain ⟨tokens, found, same⟩ := Option.map_eq_some_iff.mp cut
  exact parse_eq_ok.mpr ⟨tokens, toOption_eq_some.mp found, same ▸ read⟩

theorem readsBack_doubled : doubled.ReadsBack := by
  intro value member
  simp only [doubled, mem_nodes_binary, mem_nodes_literal, mem_nodes_column, literal.injEq,
    reduceCtorEq, false_or] at member
  rcases member with rfl | rfl
  · show Number.readBinary64? (Number.Layout.literal.write _).toList = some _
    decide +kernel
  · trivial

theorem printed_reads_doubled : doubled.KeepsGrouping ∧ parse doubled.render = .ok doubled := by
  have keeps : doubled.KeepsGrouping := by
    unfold KeepsGrouping
    decide +kernel
  have bare : Token.IsBare "2.0 * (x + 1)" := by
    unfold Token.IsBare
    decide +kernel
  exact ⟨keeps, (printed_reads parse_doubled bare readsBack_doubled).2 keeps⟩

/-- A comparison of a comparison is printed as a text that is refused, and the negation of a
membership test as the membership test of a negation. -/
theorem printed_tests :
    (∃ e, parse "(a = b) = c" = .ok e ∧ e.render = "a = b = c" ∧
      parse e.render = .error (.unexpected 6)) ∧
    ∃ e again, parse "-(a in (1))" = .ok e ∧ e.render = "-a in (1)" ∧
      parse e.render = .ok again ∧ again.same e = false := by
  constructor
  · refine ⟨.binary .eq (.binary .eq (.column "a") (.column "b")) (.column "c"), ?_, ?_, ?_⟩
    · cbv
    · decide +kernel
    · cbv
  · refine ⟨.unary .neg (.inList (.column "a") [.literal (.int 1)] false),
      .inList (.unary .neg (.column "a")) [.literal (.int 1)] false, ?_, ?_, ?_, ?_⟩
    · cbv
    · decide +kernel
    · cbv
    · rfl

end Rollup.Expr
