import Rollup.Proofs.Expr.Traversal

/-! Positions in expressions.

A subexpression has a position, the way that leads to it from the whole. The positions are listed in
the order in which an expression is rebuilt, operands before what they are operands of, and the list
has each of them once.
-/

set_option autoImplicit false

namespace Rollup.Expr

/-- The subexpression at a position, which is told by the places of operands. -/
def at? : Expr → List Nat → Option Expr
  | e, [] => some e
  | e, index :: path => e.children[index]?.bind fun part => part.at? path

/-- An operand, with all that is inside of it, comes before what it is an operand of and before the
operands to its right. -/
inductive Precedes : List Nat → List Nat → Prop
  | whole (index : Nat) (path : List Nat) : Precedes (index :: path) []
  | right {index index' : Nat} (path path' : List Nat) :
      index < index' → Precedes (index :: path) (index' :: path')
  | within (index : Nat) {path path' : List Nat} :
      Precedes path path' → Precedes (index :: path) (index :: path')

mutual

def postorder : Expr → List (List Nat)
  | .literal _ | .column _ | .placeholder _ => [[]]
  | .binary _ left right =>
    left.postorder.map (0 :: ·) ++ right.postorder.map (1 :: ·) ++ [[]]
  | .unary _ operand => operand.postorder.map (0 :: ·) ++ [[]]
  | .inList operand items _ => operand.postorder.map (0 :: ·) ++ postorderItems 1 items ++ [[]]
  | .call _ args => postorderItems 0 args ++ [[]]

/-- The positions in operands, the first of which has the given place. -/
def postorderItems (place : Nat) : List Expr → List (List Nat)
  | [] => []
  | item :: rest => item.postorder.map (place :: ·) ++ postorderItems (place + 1) rest

end

variable {e part node : Expr} {es : List Expr} {place index : Nat} {path path' : List Nat}

theorem at?_cons : e.at? (index :: path) = some node ↔
    ∃ part, e.children[index]? = some part ∧ part.at? path = some node :=
  Option.bind_eq_some_iff

theorem nodes_child_subset (child : e.children[index]? = some part) : part.nodes ⊆ e.nodes :=
  nodes_subset_of_child (List.mem_of_getElem? child)

theorem mem_nodes_of_at? (found : e.at? path = some node) : node ∈ e.nodes := by
  induction path generalizing e with
  | nil =>
    obtain rfl := Option.some.inj found
    exact self_mem_nodes _
  | cons index path ih =>
    obtain ⟨part, child, found⟩ := at?_cons.mp found
    exact nodes_child_subset child (ih found)

/-! ## The order of positions -/

namespace Precedes

theorem asymm (before : Precedes path path') : ¬ Precedes path' path := by
  induction before with
  | whole => nofun
  | right _ _ less =>
    rintro (_ | ⟨_, _, less'⟩ | _)
    · exact Nat.lt_asymm less less'
    · exact Nat.lt_irrefl _ less
  | within _ _ ih =>
    rintro (_ | ⟨_, _, less⟩ | ⟨_, behind⟩)
    · exact Nat.lt_irrefl _ less
    · exact ih behind

theorem ne (before : Precedes path path') : path ≠ path' := by
  rintro rfl
  exact before.asymm before

theorem trichotomous (path path' : List Nat) :
    Precedes path path' ∨ path = path' ∨ Precedes path' path := by
  induction path generalizing path' with
  | nil =>
    cases path' with
    | nil => exact .inr (.inl rfl)
    | cons index path' => exact .inr (.inr (.whole index path'))
  | cons index path ih =>
    cases path' with
    | nil => exact .inl (.whole index path)
    | cons index' path' =>
      rcases Nat.lt_trichotomy index index' with less | rfl | less
      · exact .inl (.right path path' less)
      · exact (ih path').imp (.within index) (Or.imp (congrArg (index :: ·)) (.within index))
      · exact .inr (.inr (.right path' path less))

end Precedes

/-! ## The positions of an expression -/

theorem postorder_eq (e : Expr) : e.postorder = postorderItems 0 e.children ++ [[]] := by
  cases e <;> simp [postorder, postorderItems, children]

theorem mem_postorderItems : path ∈ postorderItems place es ↔ ∃ index e inner,
    es[index]? = some e ∧ inner ∈ e.postorder ∧ path = (place + index) :: inner := by
  induction es generalizing place with
  | nil => simp [postorderItems]
  | cons e rest ih =>
    rw [postorderItems, List.mem_append, List.mem_map, ih]
    constructor
    · rintro (⟨inner, member, rfl⟩ | ⟨index, part, inner, among, member, rfl⟩)
      · exact ⟨0, e, inner, rfl, member, rfl⟩
      · exact ⟨index + 1, part, inner, among, member, by rw [Nat.add_right_comm, Nat.add_assoc]⟩
    · rintro ⟨index, part, inner, among, member, rfl⟩
      cases index with
      | zero =>
        obtain rfl := Option.some.inj among
        exact .inl ⟨inner, member, rfl⟩
      | succ index =>
        exact .inr ⟨index, part, inner, among, member, by rw [Nat.add_right_comm, Nat.add_assoc]⟩

theorem mem_postorder : path ∈ e.postorder ↔ ∃ node, e.at? path = some node := by
  induction path generalizing e with
  | nil => simp [postorder_eq, at?]
  | cons index path ih =>
    rw [postorder_eq, List.mem_append, mem_postorderItems]
    constructor
    · rintro (⟨_, part, _, child, member, same⟩ | root)
      · rw [Nat.zero_add, List.cons.injEq] at same
        obtain ⟨rfl, rfl⟩ := same
        obtain ⟨node, found⟩ := ih.mp member
        exact ⟨node, at?_cons.mpr ⟨part, child, found⟩⟩
      · cases List.mem_singleton.mp root
    · rintro ⟨node, found⟩
      obtain ⟨part, child, found⟩ := at?_cons.mp found
      exact .inl ⟨index, part, path, child, ih.mpr ⟨node, found⟩, by rw [Nat.zero_add]⟩

theorem pairwise_postorderItems (each : ∀ e ∈ es, e.postorder.Pairwise Precedes) :
    (postorderItems place es).Pairwise Precedes := by
  induction es generalizing place with
  | nil => exact .nil
  | cons e rest ih =>
    obtain ⟨head, tail⟩ := List.forall_mem_cons.mp each
    rw [postorderItems, List.pairwise_append]
    refine ⟨List.pairwise_map.mpr (head.imp (.within place)), ih tail, ?_⟩
    intro path member path' member'
    obtain ⟨inner, -, rfl⟩ := List.mem_map.mp member
    obtain ⟨index, -, inner', -, -, rfl⟩ := mem_postorderItems.mp member'
    exact .right inner inner' (by omega)

theorem pairwise_postorder (e : Expr) : e.postorder.Pairwise Precedes := by
  induction e using byChildren with
  | step e ih =>
    rw [postorder_eq, List.pairwise_append]
    refine ⟨pairwise_postorderItems ih, List.pairwise_singleton _ _, ?_⟩
    intro path member root is
    obtain ⟨index, -, inner, -, -, rfl⟩ := mem_postorderItems.mp member
    obtain rfl := List.mem_singleton.mp is
    exact .whole _ inner

theorem nodup_postorder (e : Expr) : e.postorder.Nodup := (pairwise_postorder e).imp Precedes.ne

end Rollup.Expr
