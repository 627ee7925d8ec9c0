import Rollup.Proofs.Computation
import Rollup.Proofs.Expr.Position

/-! Rebuilding an expression is one pass over it.

The function is applied once at every position of the old expression, in their order. It is applied
to the node there with other operands, which are what it has given at their positions, and so it
does not come into anything that it gives. The first error ends the pass.

A function may have a state, which outlives an error. Which applications are made, and in which
states, is told by a record that the function keeps of them.
-/

set_option autoImplicit false

namespace Rollup.Expr

/-- The same operation on other operands, of which there are as many as before. -/
def withOperands : Expr → List Expr → Expr
  | .binary op _ _, [left, right] => .binary op left right
  | .unary op _, [operand] => .unary op operand
  | .inList _ _ negated, operand :: items => .inList operand items negated
  | .call name _, args => .call name args
  | e, _ => e

@[simp] theorem withOperands_children (e : Expr) : e.withOperands e.children = e := by
  cases e <;> rfl

theorem children_withOperands {e : Expr} {es : List Expr}
    (length : es.length = e.children.length) : (e.withOperands es).children = es := by
  cases e with
  | literal | column | placeholder => exact (List.eq_nil_of_length_eq_zero length).symm
  | binary op left right =>
    match es, length with
    | [_, _], _ => rfl
  | unary op operand =>
    match es, length with
    | [_], _ => rfl
  | inList operand items negated =>
    match es, length with
    | _ :: _, _ => rfl
  | call name args => rfl

theorem callName?_withOperands (e : Expr) (es : List Expr) :
    (e.withOperands es).callName? = e.callName? := by
  unfold withOperands
  split <;> rfl

theorem transformM_eq {m : Type → Type} [Monad m] [LawfulMonad m] (f : Expr → m Expr) (e : Expr) :
    e.transformM f = e.children.mapM (transformM f) >>= fun es => f (e.withOperands es) := by
  cases e <;> simp [transformM, transformItemsM_eq, children, withOperands]

/-! ## Applications of a function -/

variable {σ ε : Type}

/-- An expression that a function is applied to, and the state that it finds. -/
structure Application (σ : Type) where
  argument : Expr
  state : σ

/-- A result with a record of applications beside the state. -/
def recording {α : Type} (record : List (Application σ)) :
    EStateM.Result ε σ α → EStateM.Result ε (σ × List (Application σ)) α
  | .ok value s => .ok value (s, record)
  | .error fault s => .error fault (s, record)

/-- The function that adds each of its applications to a record. -/
def recorded (f : Expr → EStateM ε σ Expr) (e : Expr) :
    EStateM ε (σ × List (Application σ)) Expr :=
  fun (s, record) => recording (record ++ [⟨e, s⟩]) (f e s)

/-- Applications one after another, and the result of the last one. One that gives an expression may
be followed by another, which finds the state that it leaves. One that fails is the last. -/
inductive InTurn (f : Expr → EStateM ε σ Expr) :
    σ → List (Application σ) → EStateM.Result ε σ Expr → Prop
  | last (e : Expr) (s : σ) : InTurn f s [⟨e, s⟩] (f e s)
  | next {e x : Expr} {s t : σ} {rest : List (Application σ)} {result : EStateM.Result ε σ Expr} :
      f e s = .ok x t → InTurn f t rest result → InTurn f s (⟨e, s⟩ :: rest) result

/-- An application at a position of an expression. -/
structure Visit (σ : Type) extends Application σ where
  position : List Nat

/-- A visit to a position has given an expression. -/
def Gives (f : Expr → EStateM ε σ Expr) (visits : List (Visit σ)) (position : List Nat)
    (x : Expr) : Prop :=
  ∃ visit ∈ visits, visit.position = position ∧ ∃ t, f visit.argument visit.state = .ok x t

/-- The argument is the node at the position, and its operands are what visits to theirs have given.
These visits are earlier ones, since the positions of operands come first. -/
def Rebuilt (f : Expr → EStateM ε σ Expr) (e : Expr) (visits : List (Visit σ))
    (visit : Visit σ) : Prop :=
  ∃ node operands, e.at? visit.position = some node ∧
    visit.argument = node.withOperands operands ∧ operands.length = node.children.length ∧
    ∀ (index : Nat) x, operands[index]? = some x → Gives f visits (visit.position ++ [index]) x

/-- The visits of a pass over an expression that begins in a state. -/
structure OnePass (f : Expr → EStateM ε σ Expr) (e : Expr) (s : σ) (visits : List (Visit σ)) :
    Prop where
  /-- No other applications are made. -/
  applications (record : List (Application σ)) : e.transformM (recorded f) (s, record) =
    recording (record ++ visits.map Visit.toApplication) (e.transformM f s)
  inTurn : InTurn f s (visits.map Visit.toApplication) (e.transformM f s)
  ordered : visits.map Visit.position <+: e.postorder
  /-- Only an error leaves positions out. -/
  complete {x : Expr} {t : σ} :
    e.transformM f s = .ok x t → visits.map Visit.position = e.postorder
  rebuilt : ∀ visit ∈ visits, Rebuilt f e visits visit

variable {f : Expr → EStateM ε σ Expr} {e x part : Expr} {es : List Expr} {s t : σ} {fault : ε}
  {applications rest : List (Application σ)} {result : EStateM.Result ε σ Expr}
  {visits others : List (Visit σ)} {visit : Visit σ} {position : List Nat} {place : Nat}

namespace InTurn

theorem append (inTurn : InTurn f s applications (.ok x t)) (next : InTurn f t rest result) :
    InTurn f s (applications ++ rest) result := by
  generalize same : EStateM.Result.ok x t = reached at inTurn
  induction inTurn with
  | last => exact .next same.symm next
  | next ok _ ih => exact .next ok (ih same)

theorem of_append {a : Application σ} (inTurn : InTurn f s (applications ++ [a]) result) :
    f a.argument a.state = result ∧
      ∀ b ∈ applications, ∃ x t, f b.argument b.state = .ok x t := by
  generalize same : applications ++ [a] = all at inTurn
  induction inTurn generalizing applications with
  | last e s =>
    cases applications with
    | nil =>
      cases same
      exact ⟨rfl, nofun⟩
    | cons b applications => cases List.append_eq_nil_iff.mp (List.cons.inj same).2 |>.2
  | next ok inTurn ih =>
    cases applications with
    | nil =>
      cases same
      cases inTurn
    | cons b applications =>
      obtain ⟨rfl, others⟩ := List.cons.inj same
      obtain ⟨last, given⟩ := ih others
      exact ⟨last, List.forall_mem_cons.mpr ⟨⟨_, _, ok⟩, given⟩⟩

end InTurn

/-! ## Visits -/

theorem Gives.mono (gives : Gives f visits position x) (kept : visits ⊆ others) :
    Gives f others position x :=
  let ⟨visit, member, given⟩ := gives
  ⟨visit, kept member, given⟩

theorem Rebuilt.mono (rebuilt : Rebuilt f e visits visit) (kept : visits ⊆ others) :
    Rebuilt f e others visit :=
  let ⟨node, operands, found, argument, length, each⟩ := rebuilt
  ⟨node, operands, found, argument, length, fun index x among => (each index x among).mono kept⟩

namespace Visit

def root (e : Expr) (s : σ) : Visit σ := ⟨⟨e, s⟩, []⟩

/-- The same visit, seen from an expression that has the old one for an operand. -/
def below (place : Nat) (visit : Visit σ) : Visit σ :=
  { visit with position := place :: visit.position }

@[simp] theorem map_toApplication_below (place : Nat) (visits : List (Visit σ)) :
    (visits.map (below place)).map toApplication = visits.map toApplication := List.map_map

@[simp] theorem map_position_below (place : Nat) (visits : List (Visit σ)) :
    (visits.map (below place)).map Visit.position =
      (visits.map Visit.position).map (place :: ·) := by
  rw [List.map_map, List.map_map]
  rfl

end Visit

theorem Gives.below (gives : Gives f visits position x) (place : Nat) :
    Gives f (visits.map (Visit.below place)) (place :: position) x :=
  let ⟨_, member, same, given⟩ := gives
  ⟨_, List.mem_map_of_mem member, congrArg (place :: ·) same, given⟩

theorem Rebuilt.below (rebuilt : Rebuilt f part visits visit)
    (child : e.children[place]? = some part) :
    Rebuilt f e (visits.map (Visit.below place)) (visit.below place) :=
  let ⟨node, operands, found, argument, length, each⟩ := rebuilt
  ⟨node, operands, at?_cons.mpr ⟨part, child, found⟩, argument, length,
    fun index x among => (each index x among).below place⟩

/-! ## Operands -/

structure OperandsPass (f : Expr → EStateM ε σ Expr) (e : Expr) (place : Nat) (es : List Expr)
    (s : σ) (visits : List (Visit σ)) : Prop where
  applications (record : List (Application σ)) : es.mapM (transformM (recorded f)) (s, record) =
    recording (record ++ visits.map Visit.toApplication) (es.mapM (transformM f) s)
  rebuilt : ∀ visit ∈ visits, Rebuilt f e visits visit
  /-- There are no visits if there are no operands, so it takes an application that follows. -/
  inTurn {xs : List Expr} {t : σ} {rest : List (Application σ)}
    {result : EStateM.Result ε σ Expr} : es.mapM (transformM f) s = .ok xs t →
      InTurn f t rest result → InTurn f s (visits.map Visit.toApplication ++ rest) result
  complete {xs : List Expr} {t : σ} : es.mapM (transformM f) s = .ok xs t →
    visits.map Visit.position = postorderItems place es
  gives {xs : List Expr} {t : σ} : es.mapM (transformM f) s = .ok xs t →
    xs.length = es.length ∧ ∀ index x, xs[index]? = some x → Gives f visits [place + index] x
  fails {fault : ε} {t : σ} : es.mapM (transformM f) s = .error fault t →
    InTurn f s (visits.map Visit.toApplication) (.error fault t) ∧
      visits.map Visit.position <+: postorderItems place es

theorem OnePass.gives (pass : OnePass f e s visits) (ok : e.transformM f s = .ok x t) :
    Gives f visits [] x := by
  have places := pass.complete ok
  rw [postorder_eq, List.map_eq_append_iff] at places
  obtain ⟨others, ends, rfl, -, last⟩ := places
  obtain ⟨visit, rfl, root⟩ := List.map_eq_singleton_iff.mp last
  have inTurn := pass.inTurn
  rw [ok, List.map_append] at inTurn
  exact ⟨visit, List.mem_append_right _ List.mem_cons_self, root, t, inTurn.of_append.1⟩

namespace OperandsPass

theorem nil (f : Expr → EStateM ε σ Expr) (e : Expr) (place : Nat) (s : σ) :
    OperandsPass f e place [] s [] where
  applications record := by
    rw [List.map_nil, List.append_nil]
    rfl
  rebuilt := nofun
  inTurn := by
    rintro _ _ _ _ ⟨⟩ next
    exact next
  complete _ := rfl
  gives := by
    rintro _ _ ⟨⟩
    exact ⟨rfl, nofun⟩
  fails := by rintro _ _ ⟨⟩

theorem cons_of_error (child : e.children[place]? = some part) (head : OnePass f part s visits)
    (failed : part.transformM f s = .error fault t) :
    OperandsPass f e place (part :: es) s (visits.map (Visit.below place)) where
  applications record := by
    have applied := head.applications record
    rw [failed] at applied
    rw [mapM_cons_of_error applied, mapM_cons_of_error failed, Visit.map_toApplication_below]
    rfl
  rebuilt visit member := by
    obtain ⟨inner, inside, rfl⟩ := List.mem_map.mp member
    exact (head.rebuilt inner inside).below child
  inTurn ok := nomatch (mapM_cons_of_error failed).symm.trans ok
  complete ok := nomatch (mapM_cons_of_error failed).symm.trans ok
  gives ok := nomatch (mapM_cons_of_error failed).symm.trans ok
  fails failed' := by
    cases (mapM_cons_of_error failed).symm.trans failed'
    rw [Visit.map_toApplication_below, Visit.map_position_below, postorderItems, ← failed]
    exact ⟨head.inTurn, (head.ordered.map _).trans (List.prefix_append _ _)⟩

theorem cons (child : e.children[place]? = some part) (head : OnePass f part s visits)
    (first : part.transformM f s = .ok x t) (tail : OperandsPass f e (place + 1) es t others) :
    OperandsPass f e place (part :: es) s (visits.map (Visit.below place) ++ others) where
  applications record := by
    have begun := head.applications record
    have ended := tail.applications (record ++ visits.map Visit.toApplication)
    rw [first] at begun
    rw [List.map_append, Visit.map_toApplication_below, ← List.append_assoc]
    cases reached : es.mapM (transformM f) t with
    | error fault u =>
      rw [reached] at ended
      rw [(mapM_cons_eq_error first).mpr reached]
      exact (mapM_cons_eq_error begun).mpr ended
    | ok xs u =>
      rw [reached] at ended
      rw [(mapM_cons_eq_ok first).mpr ⟨xs, reached, rfl⟩]
      exact (mapM_cons_eq_ok begun).mpr ⟨xs, ended, rfl⟩
  rebuilt visit member := by
    rcases List.mem_append.mp member with member | member
    · obtain ⟨inner, inside, rfl⟩ := List.mem_map.mp member
      exact ((head.rebuilt inner inside).below child).mono (List.subset_append_left _ _)
    · exact (tail.rebuilt visit member).mono (List.subset_append_right _ _)
  inTurn ok next := by
    obtain ⟨xs, reached, -⟩ := (mapM_cons_eq_ok first).mp ok
    rw [List.map_append, Visit.map_toApplication_below, List.append_assoc]
    exact (first ▸ head.inTurn).append (tail.inTurn reached next)
  complete ok := by
    obtain ⟨xs, reached, -⟩ := (mapM_cons_eq_ok first).mp ok
    rw [List.map_append, Visit.map_position_below, head.complete first, tail.complete reached,
      postorderItems]
  gives ok := by
    obtain ⟨xs, reached, rfl⟩ := (mapM_cons_eq_ok first).mp ok
    obtain ⟨length, each⟩ := tail.gives reached
    refine ⟨congrArg (· + 1) length, fun index y among => ?_⟩
    cases index with
    | zero =>
      obtain rfl := Option.some.inj among
      exact ((head.gives first).below place).mono (List.subset_append_left _ _)
    | succ index =>
      rw [← Nat.add_assoc, Nat.add_right_comm]
      exact (each index y among).mono (List.subset_append_right _ _)
  fails failed := by
    obtain ⟨inTurn, before⟩ := tail.fails ((mapM_cons_eq_error first).mp failed)
    rw [List.map_append, List.map_append, Visit.map_toApplication_below, Visit.map_position_below,
      head.complete first, postorderItems]
    exact ⟨(first ▸ head.inTurn).append inTurn, (List.prefix_append_right_inj _).mpr before⟩

theorem onePass {xs : List Expr} (pass : OperandsPass f e 0 e.children s visits)
    (reached : e.children.mapM (transformM f) s = .ok xs t) :
    OnePass f e s (visits ++ [Visit.root (e.withOperands xs) t]) := by
  have all : (visits ++ [Visit.root (e.withOperands xs) t]).map Visit.position = e.postorder := by
    rw [List.map_append, pass.complete reached, postorder_eq]
    rfl
  have result : e.transformM f s = f (e.withOperands xs) t := by
    rw [transformM_eq, bind_of_ok reached]
  refine ⟨fun record => ?_, ?_, all ▸ List.prefix_rfl, fun _ => all, fun visit member => ?_⟩
  · have applied := pass.applications record
    rw [reached] at applied
    rw [result, transformM_eq, bind_of_ok applied, List.map_append, ← List.append_assoc]
    rfl
  · rw [result, List.map_append]
    exact pass.inTurn reached (.last _ _)
  · rcases List.mem_append.mp member with member | root
    · exact (pass.rebuilt visit member).mono (List.subset_append_left _ _)
    · obtain rfl := List.mem_singleton.mp root
      obtain ⟨length, each⟩ := pass.gives reached
      refine ⟨e, xs, rfl, rfl, length, fun index x among => ?_⟩
      have given := each index x among
      rw [Nat.zero_add] at given
      exact given.mono (List.subset_append_left _ _)

theorem onePass_of_error (pass : OperandsPass f e 0 e.children s visits)
    (reached : e.children.mapM (transformM f) s = .error fault t) : OnePass f e s visits := by
  obtain ⟨inTurn, before⟩ := pass.fails reached
  have result : e.transformM f s = .error fault t := by
    rw [transformM_eq, bind_of_error reached]
  refine ⟨fun record => ?_, result ▸ inTurn, ?_, fun ok => ?_, pass.rebuilt⟩
  · have applied := pass.applications record
    rw [reached] at applied
    rw [result, transformM_eq, bind_of_error applied]
    rfl
  · rw [postorder_eq]
    exact before.trans (List.prefix_append _ _)
  · cases result.symm.trans ok

end OperandsPass

theorem exists_operandsPass
    (among : ∀ (index : Nat) part, es[index]? = some part → e.children[place + index]? = some part)
    (each : ∀ part ∈ es, ∀ s, ∃ visits, OnePass f part s visits) (s : σ) :
    ∃ visits, OperandsPass f e place es s visits := by
  induction es generalizing place s with
  | nil => exact ⟨[], .nil f e place s⟩
  | cons part rest ih =>
    obtain ⟨head, tail⟩ := List.forall_mem_cons.mp each
    obtain ⟨visits, pass⟩ := head s
    have child : e.children[place]? = some part := among 0 part rfl
    have among' : ∀ (index : Nat) part, rest[index]? = some part →
        e.children[place + 1 + index]? = some part := by
      intro index part found
      rw [Nat.add_right_comm]
      exact among (index + 1) part found
    cases reached : part.transformM f s with
    | error fault t => exact ⟨_, .cons_of_error child pass reached⟩
    | ok x t =>
      obtain ⟨others, passes⟩ := ih among' tail t
      exact ⟨_, .cons child pass reached passes⟩

/-! ## Whole expressions -/

theorem exists_onePass (f : Expr → EStateM ε σ Expr) (e : Expr) (s : σ) :
    ∃ visits, OnePass f e s visits := by
  induction e using byChildren generalizing s with
  | step e ih =>
    have among : ∀ (index : Nat) part, e.children[index]? = some part →
        e.children[0 + index]? = some part := fun index part found => by rwa [Nat.zero_add]
    obtain ⟨visits, pass⟩ := exists_operandsPass among ih s
    cases reached : e.children.mapM (transformM f) s with
    | ok xs t => exact ⟨_, pass.onePass reached⟩
    | error fault t => exact ⟨visits, pass.onePass_of_error reached⟩

/-- An error is that of a visit, and at all positions before it expressions have been given. -/
theorem OnePass.error (pass : OnePass f e s visits) (failed : e.transformM f s = .error fault t) :
    ∃ visit ∈ visits, f visit.argument visit.state = .error fault t ∧
      ∀ path node, Precedes path visit.position → e.at? path = some node →
        ∃ x, Gives f visits path x := by
  have inTurn := pass.inTurn
  rcases List.eq_nil_or_concat' visits with rfl | ⟨before, visit, rfl⟩
  · cases inTurn
  rw [List.map_append] at inTurn
  obtain ⟨last, given⟩ := inTurn.of_append
  refine ⟨visit, List.mem_append_right _ List.mem_cons_self, last.trans failed, ?_⟩
  intro path node precedes found
  obtain ⟨behind, split⟩ := pass.ordered
  have listed : path ∈ e.postorder := mem_postorder.mpr ⟨node, found⟩
  have sorted := pairwise_postorder e
  rw [← split] at listed sorted
  rcases List.mem_append.mp listed with visited | left
  · obtain ⟨other, member, rfl⟩ := List.mem_map.mp visited
    rcases List.mem_append.mp member with earlier | same
    · obtain ⟨x, t, given⟩ := given other.toApplication (List.mem_map_of_mem earlier)
      exact ⟨x, other, member, rfl, t, given⟩
    · obtain rfl := List.mem_singleton.mp same
      exact (precedes.ne rfl).elim
  · -- Positions without a visit come behind all that have one.
    have after := (List.pairwise_append.mp sorted).2.2 visit.position
      (List.mem_map_of_mem (List.mem_append_right _ List.mem_cons_self)) path left
    exact (precedes.asymm after).elim

/-! ## Functions without a state -/

def stateless (g : Expr → Except ε Expr) (e : Expr) : EStateM ε σ Expr := ofExcept (g e)

theorem ofExcept_bind {α β : Type} (x : Except ε α) (k : α → Except ε β) :
    (ofExcept (x >>= k) : EStateM ε σ β) = ofExcept x >>= fun a => ofExcept (k a) := by
  cases x <;> rfl

theorem transformM_stateless (g : Expr → Except ε Expr) (e : Expr) :
    (e.transformM (stateless g) : EStateM ε σ Expr) = ofExcept (e.transformM g) := by
  have each : ∀ {es : List Expr},
      (∀ e ∈ es, (e.transformM (stateless g) : EStateM ε σ Expr) = ofExcept (e.transformM g)) →
      (es.mapM (transformM (stateless g)) : EStateM ε σ _) = ofExcept (es.mapM (transformM g)) := by
    intro es one
    induction es with
    | nil => rfl
    | cons e rest ih =>
      obtain ⟨head, tail⟩ := List.forall_mem_cons.mp one
      rw [List.mapM_cons, List.mapM_cons, head, ih tail]
      simp only [ofExcept_bind]
      rfl
  induction e using byChildren with
  | step e ih =>
    rw [transformM_eq, transformM_eq, each ih, ofExcept_bind]
    rfl

variable {g : Expr → Except ε Expr}

theorem stateless_eq_ok : stateless g e s = .ok x t ↔ g e = .ok x ∧ s = t := by
  unfold stateless
  cases g e with
  | error fault => exact ⟨nofun, nofun⟩
  | ok y =>
    constructor
    · rintro ⟨⟩
      exact ⟨rfl, rfl⟩
    · rintro ⟨⟨⟩, rfl⟩
      rfl

theorem stateless_eq_error : stateless g e s = .error fault t ↔ g e = .error fault ∧ s = t := by
  unfold stateless
  cases g e with
  | ok x => exact ⟨nofun, nofun⟩
  | error other =>
    constructor
    · rintro ⟨⟩
      exact ⟨rfl, rfl⟩
    · rintro ⟨⟨⟩, rfl⟩
      rfl

/-! ## The pass -/

theorem transformM_unchanged (kept : ∀ e s, ∃ t, f e s = .ok e t) (e : Expr) (s : σ) :
    ∃ t, e.transformM f s = .ok e t := by
  have each : ∀ {es : List Expr}, (∀ e ∈ es, ∀ s, ∃ t, e.transformM f s = .ok e t) →
      ∀ s, ∃ t, es.mapM (transformM f) s = .ok es t := by
    intro es one
    induction es with
    | nil => exact fun s => ⟨s, rfl⟩
    | cons e rest ih =>
      intro s
      obtain ⟨head, tail⟩ := List.forall_mem_cons.mp one
      obtain ⟨t, first⟩ := head s
      obtain ⟨u, others⟩ := ih tail t
      exact ⟨u, (mapM_cons_eq_ok first).mpr ⟨rest, others, rfl⟩⟩
  induction e using byChildren generalizing s with
  | step e ih =>
    obtain ⟨t, operands⟩ := each ih s
    rw [transformM_eq, bind_of_ok operands, withOperands_children]
    exact kept e t

/-- Rebuilding an expression is one pass over its positions, of which each is listed once, operands
before the whole and from left to right. If the function gives its arguments back, so does the
pass. -/
theorem onePass_transformM (f : Expr → EStateM ε σ Expr) (e : Expr) (s : σ) :
    (∃ visits, OnePass f e s visits) ∧
      (∀ path, path ∈ e.postorder ↔ ∃ node, e.at? path = some node) ∧
      e.postorder.Nodup ∧ e.postorder.Pairwise Precedes ∧
      ((∀ e s, ∃ t, f e s = .ok e t) → ∃ t, e.transformM f s = .ok e t) :=
  ⟨exists_onePass f e s, fun _ => mem_postorder, nodup_postorder e, pairwise_postorder e,
    fun kept => transformM_unchanged kept e s⟩

def counted (e : Expr) : EStateM String Nat Expr := fun count => .ok e (count + 1)

def unlisted : Expr := .inList (.column "host") [.column "region", .placeholder "name"] true

theorem onePass_transformM_counted :
    (∃ visits, OnePass counted unlisted 0 visits) ∧
      (∀ e s, ∃ t, counted e s = .ok e t) ∧
        ∃ t, unlisted.transformM counted 0 = .ok unlisted t := by
  have kept : ∀ e s, ∃ t, counted e s = .ok e t := fun e s => ⟨s + 1, rfl⟩
  obtain ⟨pass, -, -, -, unchanged⟩ := onePass_transformM counted unlisted 0
  exact ⟨pass, kept, unchanged kept⟩

/-- What a column is replaced by is not visited, and nothing is visited after an error. -/
example :
    let replaced : Expr → EStateM String Unit Expr := fun
      | .column _ => pure (.binary .div (.column "cpu") (.placeholder "step"))
      | .placeholder name => throw name
      | e => pure e
    (binary .add (.column "load") (.placeholder "step")).transformM (recorded replaced) ((), []) =
      .error "step" ((), [⟨.column "load", ()⟩, ⟨.placeholder "step", ()⟩]) := rfl

end Rollup.Expr
