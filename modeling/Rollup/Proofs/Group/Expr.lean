import Rollup.Group.Expr
import Rollup.Proofs.Computation
import Rollup.Proofs.Expr.Literal

/-! Expressions over groups: induction, their parts and operands, what they refer to, what they
call, and equality as keys.

The induction principle gives a hypothesis for every item of a list. References and calls are those
of the parts in their order, the level of an expression is the greatest among its references, and
equal keys call the same functions.
-/

set_option autoImplicit false

namespace Rollup

namespace GroupExpr

-- As for expressions of queries: the motive for lists says what holds of all items.
@[elab_as_elim, induction_eliminator]
theorem byParts {P : GroupExpr → Prop}
    (reference : ∀ target, P (.reference target))
    (literal : ∀ value, P (.literal value))
    (binary : ∀ op left right, P left → P right → P (.binary op left right))
    (unary : ∀ op operand, P operand → P (.unary op operand))
    (inList : ∀ operand items negated, P operand → (∀ item ∈ items, P item) →
      P (.inList operand items negated))
    (call : ∀ name args, (∀ arg ∈ args, P arg) → P (.call name args)) (e : GroupExpr) : P e :=
  @GroupExpr.rec P (fun es => ∀ e ∈ es, P e) reference literal binary unary inList call
    (fun _ member => absurd member List.not_mem_nil)
    (fun _ _ head tail _ member => (List.mem_cons.mp member).elim (· ▸ head) (tail _)) e

/-! ## Nodes -/

theorem nodes_binary (op : BinaryOp) (left right : GroupExpr) :
    (binary op left right).nodes = .binary op left right :: (left.nodes ++ right.nodes) := rfl

theorem nodes_unary (op : UnaryOp) (operand : GroupExpr) :
    (unary op operand).nodes = .unary op operand :: operand.nodes := rfl

theorem nodesEach_eq (es : List GroupExpr) : nodesEach es = es.flatMap nodes := by
  induction es with
  | nil => rfl
  | cons e rest ih => rw [nodesEach, ih, List.flatMap_cons]

theorem nodes_inList (operand : GroupExpr) (items : List GroupExpr) (negated : Bool) :
    (inList operand items negated).nodes =
      .inList operand items negated :: (operand.nodes ++ items.flatMap nodes) :=
  congrArg (inList operand items negated :: operand.nodes ++ ·) (nodesEach_eq items)

theorem nodes_call (name : String) (args : List GroupExpr) :
    (call name args).nodes = .call name args :: args.flatMap nodes :=
  congrArg (call name args :: ·) (nodesEach_eq args)

/-! ## Parts -/

section
variable {P : GroupExpr → Prop} {e node part whole : GroupExpr}

def children : GroupExpr → List GroupExpr
  | .reference _ | .literal _ => []
  | .binary _ left right => [left, right]
  | .unary _ operand => [operand]
  | .inList operand items _ => operand :: items
  | .call _ args => args

theorem byChildren (step : ∀ e : GroupExpr, (∀ part ∈ e.children, P part) → P e)
    (e : GroupExpr) : P e := by
  induction e with
  | reference | literal => exact step _ nofun
  | binary op left right ihl ihr => exact step _ (by simpa [children] using ⟨ihl, ihr⟩)
  | unary op operand ih => exact step _ (by simpa [children] using ih)
  | inList operand items negated ih ihs => exact step _ (List.forall_mem_cons.mpr ⟨ih, ihs⟩)
  | call name args ihs => exact step _ ihs

theorem nodes_eq (e : GroupExpr) : e.nodes = e :: e.children.flatMap nodes := by
  cases e with
  | inList operand items negated => simp [nodes_inList, children]
  | call name args => simp [nodes_call, children]
  | _ => simp [nodes, children]

theorem mem_nodes : node ∈ e.nodes ↔ node = e ∨ ∃ part ∈ e.children, node ∈ part.nodes := by
  rw [nodes_eq, List.mem_cons, List.mem_flatMap]

theorem self_mem_nodes : e ∈ e.nodes := mem_nodes.mpr (.inl rfl)

/-- What passes from every expression to its operands holds of all parts. -/
theorem forall_nodes (start : P e) (step : ∀ whole, P whole → ∀ part ∈ whole.children, P part) :
    ∀ node ∈ e.nodes, P node := by
  induction e using byChildren with
  | step e ih =>
    intro node member
    rcases mem_nodes.mp member with rfl | ⟨part, listed, member⟩
    · exact start
    · exact ih part listed (step e start part listed) node member

theorem child_mem_nodes (member : whole ∈ e.nodes) (child : part ∈ whole.children) :
    part ∈ e.nodes := by
  induction e using byChildren with
  | step e ih =>
    rcases mem_nodes.mp member with rfl | ⟨inner, listed, member⟩
    · exact mem_nodes.mpr (.inr ⟨part, child, self_mem_nodes⟩)
    · exact mem_nodes.mpr (.inr ⟨inner, listed, ih inner listed member⟩)

theorem nodes_subset (member : node ∈ e.nodes) : node.nodes ⊆ e.nodes :=
  forall_nodes member fun _ within _ child => child_mem_nodes within child

/-! ## Operands -/

def withOperands : GroupExpr → List GroupExpr → GroupExpr
  | .binary op _ _, [left, right] => .binary op left right
  | .unary op _, [operand] => .unary op operand
  | .inList _ _ negated, operand :: items => .inList operand items negated
  | .call name _, args => .call name args
  | e, _ => e

theorem withOperands_children (e : GroupExpr) : e.withOperands e.children = e := by
  cases e <;> rfl

theorem children_withOperands {es : List GroupExpr} (length : es.length = e.children.length) :
    (e.withOperands es).children = es := by
  cases e with
  | reference | literal => exact (List.eq_nil_of_length_eq_zero length).symm
  | binary op left right =>
    match es, length with
    | [_, _], _ => rfl
  | unary op operand =>
    match es, length with
    | [_], _ => rfl
  | inList operand items negated =>
    match es, length with
    | _ :: _, _ => rfl
  | call name args => rfl

theorem target?_withOperands (e : GroupExpr) (es : List GroupExpr) :
    (e.withOperands es).target? = e.target? := by
  unfold withOperands
  split <;> rfl

theorem target?_eq_some {target : Reference} :
    e.target? = some target ↔ e = .reference target := by
  cases e <;> simp [target?]

end

/-! ## References -/

@[simp] theorem references_reference (target : Reference) :
    (reference target).references = [target] := rfl

@[simp] theorem references_literal (value : Literal) : (literal value).references = [] := rfl

@[simp] theorem references_binary (op : BinaryOp) (left right : GroupExpr) :
    (binary op left right).references = left.references ++ right.references := by
  rw [references, nodes_binary, List.filterMap_cons_none rfl, List.filterMap_append]
  rfl

@[simp] theorem references_unary (op : UnaryOp) (operand : GroupExpr) :
    (unary op operand).references = operand.references := by
  rw [references, nodes_unary, List.filterMap_cons_none rfl]
  rfl

@[simp] theorem references_inList (operand : GroupExpr) (items : List GroupExpr) (negated : Bool) :
    (inList operand items negated).references =
      operand.references ++ items.flatMap references := by
  rw [references, nodes_inList, List.filterMap_cons_none rfl, List.filterMap_append,
    List.filterMap_flatMap]
  rfl

@[simp] theorem references_call (name : String) (args : List GroupExpr) :
    (call name args).references = args.flatMap references := by
  rw [references, nodes_call, List.filterMap_cons_none rfl, List.filterMap_flatMap]
  rfl

theorem references_eq {e : GroupExpr} (plain : e.target? = none) :
    e.references = e.children.flatMap references := by
  cases e with
  | reference target => cases plain
  | _ => simp [children]

/-! ## Calls -/

def callName? : GroupExpr → Option String
  | .call name _ => some name
  | _ => none

def calls (e : GroupExpr) : List String := e.nodes.filterMap callName?

@[simp] theorem calls_reference (target : Reference) : (reference target).calls = [] := rfl

@[simp] theorem calls_literal (value : Literal) : (literal value).calls = [] := rfl

@[simp] theorem calls_binary (op : BinaryOp) (left right : GroupExpr) :
    (binary op left right).calls = left.calls ++ right.calls := by
  rw [calls, nodes_binary, List.filterMap_cons_none rfl, List.filterMap_append]
  rfl

@[simp] theorem calls_unary (op : UnaryOp) (operand : GroupExpr) :
    (unary op operand).calls = operand.calls := by
  rw [calls, nodes_unary, List.filterMap_cons_none rfl]
  rfl

@[simp] theorem calls_inList (operand : GroupExpr) (items : List GroupExpr) (negated : Bool) :
    (inList operand items negated).calls = operand.calls ++ items.flatMap calls := by
  rw [calls, nodes_inList, List.filterMap_cons_none rfl, List.filterMap_append,
    List.filterMap_flatMap]
  rfl

@[simp] theorem calls_call (name : String) (args : List GroupExpr) :
    (call name args).calls = name :: args.flatMap calls := by
  have named : callName? (call name args) = some name := rfl
  rw [calls, nodes_call, List.filterMap_cons_some named, List.filterMap_flatMap]
  rfl

theorem callName?_withOperands (e : GroupExpr) (es : List GroupExpr) :
    (e.withOperands es).callName? = e.callName? := by
  unfold withOperands
  split <;> rfl

theorem calls_eq (e : GroupExpr) : e.calls = e.callName?.toList ++ e.children.flatMap calls := by
  cases e <;> simp [children, callName?]

theorem calls_subset {node e : GroupExpr} (member : node ∈ e.nodes) : node.calls ⊆ e.calls :=
  List.filterMap_subset _ (nodes_subset member)

theorem references_subset {node e : GroupExpr} (member : node ∈ e.nodes) :
    node.references ⊆ e.references :=
  List.filterMap_subset _ (nodes_subset member)

/-- Expressions as they are before sharing. -/
def isPlain (e : GroupExpr) : Prop := ∀ index, .shared index ∉ e.references

theorem isPlain.child {part e : GroupExpr} (plain : e.isPlain) (child : part ∈ e.children) :
    part.isPlain :=
  fun index refers => plain index (references_subset (child_mem_nodes self_mem_nodes child) refers)

/-! ## Levels -/

theorem rank_max_le {a b : Level} {bound : Nat} :
    (a.max b).rank ≤ bound ↔ a.rank ≤ bound ∧ b.rank ≤ bound := by
  unfold Level.max
  split <;> omega

-- Levels are compared by their bounds: a bound of the whole is a bound of every reference.
theorem rank_foldl_le {targets : List Reference} {reached : Level} {bound : Nat} :
    (targets.foldl (fun reached target => reached.max target.level) reached).rank ≤ bound ↔
      reached.rank ≤ bound ∧ ∀ target ∈ targets, target.level.rank ≤ bound := by
  induction targets generalizing reached with
  | nil => simp
  | cons target rest ih =>
    rw [List.foldl_cons, ih, rank_max_le, List.forall_mem_cons, and_assoc]

/-- An expression is at a level no later than all that it refers to. -/
theorem rank_level_le {e : GroupExpr} {bound : Nat} :
    e.level.rank ≤ bound ↔ ∀ target ∈ e.references, target.level.rank ≤ bound := by
  rw [level, rank_foldl_le]
  exact ⟨And.right, fun each => ⟨Nat.zero_le _, each⟩⟩

theorem level_eq_row {e : GroupExpr} :
    e.level = .row ↔ ∀ target ∈ e.references, target.level = .row := by
  have zero : ∀ level : Level, level.rank ≤ 0 ↔ level = .row := by
    intro level
    cases level <;> simp [Level.rank]
  rw [← zero, rank_level_le]
  simp only [zero]

theorem level_eq_output {e : GroupExpr} :
    e.level = .output ↔ ∃ target ∈ e.references, target.level = .output := by
  have late : ∀ level : Level, level = .output ↔ ¬ level.rank ≤ 1 := by
    intro level
    cases level <;> simp [Level.rank]
  rw [late, rank_level_le]
  simp only [late, not_forall, exists_prop]

/-! ## Equality as keys -/

section
variable {a b c : GroupExpr}

/-- The same tree up to equal literals. -/
inductive SameTree : GroupExpr → GroupExpr → Prop
  | reference (target : Reference) : SameTree (.reference target) (.reference target)
  | literal {value value' : Literal} (equal : value.same value' = true) :
      SameTree (.literal value) (.literal value')
  | binary {op : BinaryOp} {left left' right right' : GroupExpr} (first : SameTree left left')
      (second : SameTree right right') : SameTree (.binary op left right) (.binary op left' right')
  | unary {op : UnaryOp} {operand operand' : GroupExpr} (inner : SameTree operand operand') :
      SameTree (.unary op operand) (.unary op operand')
  | inList {operand operand' : GroupExpr} {items items' : List GroupExpr} {negated : Bool}
      (inner : SameTree operand operand') (each : List.Forall₂ SameTree items items') :
      SameTree (.inList operand items negated) (.inList operand' items' negated)
  | call {name : String} {args args' : List GroupExpr} (each : List.Forall₂ SameTree args args') :
      SameTree (.call name args) (.call name args')

-- The recursor has a second motive for related lists; it says of them what holds of their items.
@[elab_as_elim, induction_eliminator]
theorem SameTree.byParts {P : ∀ a b, SameTree a b → Prop}
    (reference : ∀ target, P (.reference target) (.reference target) (.reference target))
    (literal : ∀ {value value' : Literal} (equal : value.same value' = true),
      P (.literal value) (.literal value') (.literal equal))
    (binary : ∀ {op left left' right right'} (first : SameTree left left')
      (second : SameTree right right'), P left left' first → P right right' second →
      P (.binary op left right) (.binary op left' right') (.binary first second))
    (unary : ∀ {op operand operand'} (inner : SameTree operand operand'),
      P operand operand' inner → P (.unary op operand) (.unary op operand') (.unary inner))
    (inList : ∀ {operand operand' items items' negated} (inner : SameTree operand operand')
      (each : List.Forall₂ SameTree items items'), P operand operand' inner →
      List.Forall₂ (fun a b => ∃ same, P a b same) items items' →
      P (.inList operand items negated) (.inList operand' items' negated) (.inList inner each))
    (call : ∀ {name args args'} (each : List.Forall₂ SameTree args args'),
      List.Forall₂ (fun a b => ∃ same, P a b same) args args' →
      P (.call name args) (.call name args') (.call each))
    (same : SameTree a b) : P a b same :=
  @SameTree.rec P (fun as bs _ => List.Forall₂ (fun a b => ∃ same, P a b same) as bs) reference
    literal binary unary inList call .nil (fun first _ head tail => .cons ⟨first, head⟩ tail) a b
    same

namespace SameTree

theorem refl (e : GroupExpr) : SameTree e e := by
  induction e with
  | reference target => exact .reference target
  | literal value => exact .literal value.same_refl
  | binary op left right ihl ihr => exact .binary ihl ihr
  | unary op operand ih => exact .unary ih
  | inList operand items negated ih ihs => exact .inList ih (List.forall₂_same.mpr ihs)
  | call name args ihs => exact .call (List.forall₂_same.mpr ihs)

theorem symm (same : SameTree a b) : SameTree b a := by
  induction same with
  | reference target => exact .reference target
  | literal equal => exact .literal (Literal.same_symm equal)
  | binary first second back back' => exact .binary back back'
  | unary inner back => exact .unary back
  | inList inner each back backs => exact .inList back (backs.imp fun _ _ => Exists.snd).flip
  | call each backs => exact .call (backs.imp fun _ _ => Exists.snd).flip

theorem trans (same : SameTree a b) (onward : SameTree b c) : SameTree a c := by
  induction same generalizing c with
  | reference target => exact onward
  | literal equal =>
    cases onward with
    | literal next => exact .literal (Literal.same_trans equal next)
  | binary first second whole whole' =>
    cases onward with
    | binary next next' => exact .binary (whole next) (whole' next')
  | unary inner whole =>
    cases onward with
    | unary next => exact .unary (whole next)
  | inList inner each whole wholes =>
    cases onward with
    | inList next nexts =>
      have every := (related_comp wholes nexts).imp fun _ _ ⟨_, ⟨_, whole⟩, next⟩ => whole next
      exact .inList (whole next) every
  | call each wholes =>
    cases onward with
    | call nexts =>
      exact .call ((related_comp wholes nexts).imp fun _ _ ⟨_, ⟨_, whole⟩, next⟩ => whole next)

theorem nodes (same : SameTree a b) : List.Forall₂ SameTree a.nodes b.nodes := by
  induction same with
  | reference target => exact .cons (.refl _) .nil
  | literal equal => exact .cons (.literal equal) .nil
  | binary first second left right =>
    exact .cons (.binary first second) (List.rel_append left right)
  | unary inner operand => exact .cons (.unary inner) operand
  | inList inner each operand items =>
    rw [nodes_inList, nodes_inList]
    exact .cons (.inList inner each)
      (List.rel_append operand (List.rel_flatMap items fun _ _ => Exists.snd))
  | call each args =>
    rw [nodes_call, nodes_call]
    exact .cons (.call each) (List.rel_flatMap args fun _ _ => Exists.snd)

end SameTree

theorem sameItems_iff {as bs : List GroupExpr} :
    sameItems as bs = true ↔ List.Forall₂ (fun a b => same a b = true) as bs := by
  induction as generalizing bs with
  | nil => cases bs <;> simp [sameItems]
  | cons a rest ih => cases bs <;> simp [sameItems, ih]

theorem sameTree_of_same (equal : a.same b = true) : SameTree a b := by
  induction a generalizing b with
  | reference target =>
    cases b <;> simp only [same, beq_iff_eq, Bool.false_eq_true] at equal
    exact equal ▸ .refl _
  | literal value =>
    cases b <;> simp only [same, Bool.false_eq_true] at equal
    exact .literal equal
  | binary op left right ihl ihr =>
    cases b <;> simp only [same, Bool.and_eq_true, beq_iff_eq, Bool.false_eq_true] at equal
    obtain ⟨⟨rfl, first⟩, second⟩ := equal
    exact .binary (ihl first) (ihr second)
  | unary op operand ih =>
    cases b <;> simp only [same, Bool.and_eq_true, beq_iff_eq, Bool.false_eq_true] at equal
    obtain ⟨rfl, inner⟩ := equal
    exact .unary (ih inner)
  | inList operand items negated ih ihs =>
    cases b <;> simp only [same, Bool.and_eq_true, beq_iff_eq, Bool.false_eq_true] at equal
    obtain ⟨⟨inner, each⟩, rfl⟩ := equal
    exact .inList (ih inner)
      (forall₂_imp_of_mem (sameItems_iff.mp each) fun item listed b => ihs item listed)
  | call name args ihs =>
    cases b <;> simp only [same, Bool.and_eq_true, beq_iff_eq, Bool.false_eq_true] at equal
    obtain ⟨rfl, each⟩ := equal
    exact .call (forall₂_imp_of_mem (sameItems_iff.mp each) fun arg listed b => ihs arg listed)

theorem same_of_sameTree (tree : SameTree a b) : a.same b = true := by
  induction tree with
  | reference => simp [same]
  | literal equal => exact equal
  | binary _ _ first second => simp [same, first, second]
  | unary _ inner => simp [same, inner]
  | inList _ _ inner each => simpa [same, inner, sameItems_iff] using each.imp fun _ _ => Exists.snd
  | call _ each => simpa [same, sameItems_iff] using each.imp fun _ _ => Exists.snd

theorem same_iff : a.same b = true ↔ SameTree a b := ⟨sameTree_of_same, same_of_sameTree⟩

theorem same_refl (e : GroupExpr) : same e e = true := same_iff.mpr (.refl e)

theorem same_symm (equal : same a b = true) : same b a = true :=
  same_iff.mpr (same_iff.mp equal).symm

theorem same_trans (first : same a b = true) (second : same b c = true) : same a c = true :=
  same_iff.mpr ((same_iff.mp first).trans (same_iff.mp second))

theorem same_withOperands {e : GroupExpr} {es : List GroupExpr}
    (each : sameItems es e.children = true) : same (e.withOperands es) e = true := by
  cases e with
  | reference | literal => exact same_refl _
  | binary op left right =>
    match es, sameItems_iff.mp each with
    | [_, _], .cons first (.cons second .nil) => simp [withOperands, same, first, second]
  | unary op operand =>
    match es, sameItems_iff.mp each with
    | [_], .cons inner .nil => simp [withOperands, same, inner]
  | inList operand items negated =>
    match es, sameItems_iff.mp each with
    | _ :: _, .cons inner items => simp [withOperands, same, inner, sameItems_iff.mpr items]
  | call name args => simpa [withOperands, same, children] using each

theorem calls_of_same (equal : same a b = true) : a.calls = b.calls := by
  refine (filterMap_of_related (same_iff.mp equal).nodes fun a b same => ?_).symm
  cases same <;> rfl

theorem references_of_same (equal : same a b = true) : a.references = b.references := by
  refine (filterMap_of_related (same_iff.mp equal).nodes fun a b same => ?_).symm
  cases same <;> rfl

end

instance : EquivBEq GroupExpr where
  rfl := same_refl _
  symm := same_symm
  trans := same_trans

end GroupExpr

end Rollup
