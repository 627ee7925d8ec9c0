import Rollup.Proofs.Group.Shared

/-! What is shared is what outputs have in common, and all of it.

An expression is shared if it is repeated among the outputs that are computed from aggregates. What
is left of these repeats nothing: a compound part that two of them still had, with the shared
expressions back in place, would be in both of the original expressions, so it would be shared
itself and not be there any more.
-/

set_option autoImplicit false

namespace Rollup

/-- Two places of a list have a property. -/
def TwoOf {α : Type} (P : α → Prop) (items : List α) : Prop :=
  ∃ (i j : Nat) (a b : α), i ≠ j ∧ items[i]? = some a ∧ items[j]? = some b ∧ P a ∧ P b

theorem TwoOf.of_related {α β : Type} {R : α → β → Prop} {P : α → Prop} {Q : β → Prop}
    {as : List α} {bs : List β} (related : List.Forall₂ R as bs)
    (each : ∀ a b, R a b → Q b → P a) : TwoOf Q bs → TwoOf P as := by
  rintro ⟨i, j, b, d, apart, first, second, is, is'⟩
  obtain ⟨a, first, related₁⟩ := related_getElem? related.flip first
  obtain ⟨c, second, related₂⟩ := related_getElem? related.flip second
  exact ⟨i, j, a, c, apart, first, second, each a b related₁ is, each c d related₂ is'⟩

theorem one_le_countP_iff {α : Type} {p : α → Bool} {items : List α} :
    1 ≤ items.countP p ↔ ∃ (i : Nat) (a : α), items[i]? = some a ∧ p a = true := by
  rw [Nat.succ_le_iff, List.countP_pos_iff]
  constructor
  · rintro ⟨a, member, is⟩
    obtain ⟨i, place⟩ := List.mem_iff_getElem?.mp member
    exact ⟨i, a, place, is⟩
  · rintro ⟨i, a, place, is⟩
    exact ⟨a, List.mem_of_getElem? place, is⟩

theorem two_le_countP_iff {α : Type} {p : α → Bool} {items : List α} :
    2 ≤ items.countP p ↔ TwoOf (fun a => p a = true) items := by
  induction items with
  | nil => simp [TwoOf]
  | cons item rest ih =>
    constructor
    · intro two
      rw [List.countP_cons] at two
      split at two
      · rename_i is
        obtain ⟨j, b, second, is'⟩ := one_le_countP_iff.mp (Nat.le_of_succ_le_succ two)
        exact ⟨0, j + 1, item, b, Nat.succ_ne_zero j |>.symm, rfl, second, is, is'⟩
      · obtain ⟨i, j, a, b, apart, first, second, is, is'⟩ := ih.mp two
        exact ⟨i + 1, j + 1, a, b, by omega, first, second, is, is'⟩
    · rintro ⟨i, j, a, b, apart, first, second, is, is'⟩
      rw [List.countP_cons]
      -- One of the places may be the first one; both of them cannot.
      cases i with
      | zero =>
        cases j with
        | zero => exact absurd rfl apart
        | succ j =>
          obtain rfl := Option.some.inj first
          rw [if_pos is]
          exact Nat.succ_le_succ (one_le_countP_iff.mpr ⟨j, b, second, is'⟩)
      | succ i =>
        cases j with
        | zero =>
          obtain rfl := Option.some.inj second
          rw [if_pos is']
          exact Nat.succ_le_succ (one_le_countP_iff.mpr ⟨i, a, first, is⟩)
        | succ j =>
          exact Nat.le_add_right_of_le (ih.mpr ⟨i, j, a, b, by omega, first, second, is, is'⟩)

namespace GroupExpr

def OccursIn (part whole : GroupExpr) : Prop := ∃ node ∈ whole.nodes, node.same part = true

theorem isCompound_of_same {a b : GroupExpr} (equal : same a b = true) :
    a.isCompound = b.isCompound := by
  cases a <;> cases b <;> first | rfl | cases equal

theorem hasAggregate_of_same {a b : GroupExpr} (equal : same a b = true) :
    a.hasAggregate = b.hasAggregate := by
  rw [hasAggregate, references_of_same equal, hasAggregate]

theorem hasAggregate_of_mem_nodes {node e : GroupExpr} (member : node ∈ e.nodes)
    (is : node.hasAggregate = true) : e.hasAggregate = true := by
  obtain ⟨target, refers, is⟩ := List.any_eq_true.mp is
  exact List.any_eq_true.mpr ⟨target, references_subset member refers, is⟩

section
variable {f : Reference → GroupExpr}

theorem SameTree.substitute {a b : GroupExpr} (same : SameTree a b) :
    SameTree (a.substitute f) (b.substitute f) := by
  have each : ∀ {as bs : List GroupExpr},
      List.Forall₂ (fun a b => ∃ _ : SameTree a b, SameTree (a.substitute f) (b.substitute f))
        as bs → List.Forall₂ SameTree (as.map (·.substitute f)) (bs.map (·.substitute f)) :=
    fun related => List.forall₂_map_left_iff.mpr
      (List.forall₂_map_right_iff.mpr (related.imp fun _ _ => Exists.snd))
  induction same with
  | reference target => exact .refl _
  | literal equal => exact .literal equal
  | binary _ _ first second => exact .binary first second
  | unary _ inner => exact .unary inner
  | inList _ _ inner items =>
    rw [substitute_inList, substitute_inList]
    exact .inList inner (each items)
  | call _ args =>
    rw [substitute_call, substitute_call]
    exact .call (each args)

theorem same_substitute {a b : GroupExpr} (equal : same a b = true) :
    same (a.substitute f) (b.substitute f) = true :=
  same_iff.mpr (same_iff.mp equal).substitute

theorem isCompound_substitute {e : GroupExpr} (is : e.isCompound = true) :
    (e.substitute f).isCompound = true := by
  cases e <;> simp_all [isCompound]

end

theorem hasAggregate_unshare {found : List GroupExpr}
    (shared : ∀ e ∈ found, e.hasAggregate = true) {e : GroupExpr} (is : e.hasAggregate = true) :
    (e.unshare found).hasAggregate = true := by
  obtain ⟨target, refers, aggregated⟩ := List.any_eq_true.mp is
  have defined : (definitionIn found target).hasAggregate = true := by
    cases target with
    | shared index =>
      rw [definitionIn]
      cases place : found[index]? with
      | none => rfl
      | some x => exact shared x (List.mem_of_getElem? place)
    | aggregate index => rfl
    | _ => cases aggregated
  obtain ⟨other, within, is⟩ := List.any_eq_true.mp defined
  exact List.any_eq_true.mpr ⟨other, mem_references_substitute.mpr ⟨target, refers, within⟩, is⟩

end GroupExpr

/-! ## What is shared -/

theorem isShared_iff {outputs : List Output} {e : GroupExpr} :
    isShared (computedExprs outputs) e = true ↔ e.isCompound = true ∧ e.hasAggregate = true ∧
      TwoOf (fun output => output.isComputed = true ∧ e.OccursIn output.expr) outputs := by
  have counted : occurrences (computedExprs outputs) e =
      outputs.countP fun output => output.expr.nodes.any (· == e) && output.isComputed := by
    rw [occurrences, computedExprs, List.countP_map, List.countP_filter]
    rfl
  rw [isShared, counted, Bool.and_eq_true, Bool.and_eq_true, decide_eq_true_eq, two_le_countP_iff,
    and_assoc]
  have occurs : ∀ output : Output, ((output.expr.nodes.any (· == e) && output.isComputed) = true) =
      (output.isComputed = true ∧ e.OccursIn output.expr) := by
    intro output
    rw [Bool.and_eq_true, and_comm, List.any_eq_true]
    rfl
  simp only [occurs]

theorem isShared_of_same {wholes : List GroupExpr} {a b : GroupExpr} (equal : a.same b = true) :
    isShared wholes a = isShared wholes b := by
  rw [isShared, isShared, GroupExpr.isCompound_of_same equal, GroupExpr.hasAggregate_of_same equal,
    occurrences_of_same wholes equal]

/-! ## What is left -/

/-- The compound parts that are left, with the shared expressions back in place, are parts that are
not shared. -/
def RestsOn (shared : GroupExpr → Bool) (parts rest found : List GroupExpr) : Prop :=
  ∀ node ∈ rest, node.isCompound = true → ∃ origin ∈ parts, shared origin = false ∧
    ∀ final, found <+: final → (node.unshare final).same origin = true

namespace RestsOn
variable {shared : GroupExpr → Bool} {parts parts' rest rest' found found' : List GroupExpr}

theorem later (rests : RestsOn shared parts rest found) (kept : found <+: found') :
    RestsOn shared parts rest found' := fun node member compound =>
  (rests node member compound).imp fun _ ⟨within, is, same⟩ =>
    ⟨within, is, fun final more => same final (kept.trans more)⟩

theorem append (one : RestsOn shared parts rest found) (two : RestsOn shared parts' rest' found) :
    RestsOn shared (parts ++ parts') (rest ++ rest') found := by
  intro node member compound
  rcases List.mem_append.mp member with member | member
  · obtain ⟨origin, within, is⟩ := one node member compound
    exact ⟨origin, List.mem_append_left _ within, is⟩
  · obtain ⟨origin, within, is⟩ := two node member compound
    exact ⟨origin, List.mem_append_right _ within, is⟩

theorem operation {e : GroupExpr} {es : List GroupExpr} (is : shared e = false)
    (length : es.length = e.children.length)
    (same : ∀ final, found <+: final → ((e.withOperands es).unshare final).same e = true)
    (rests : RestsOn shared (e.children.flatMap GroupExpr.nodes) (es.flatMap GroupExpr.nodes)
      found) : RestsOn shared e.nodes (e.withOperands es).nodes found := by
  rw [GroupExpr.nodes_eq e, GroupExpr.nodes_eq (e.withOperands es),
    GroupExpr.children_withOperands length]
  intro node member compound
  rcases List.mem_cons.mp member with rfl | member
  · exact ⟨e, List.mem_cons_self, is, same⟩
  · obtain ⟨origin, within, is⟩ := rests node member compound
    exact ⟨origin, List.mem_cons_of_mem _ within, is⟩

theorem leaf {x : GroupExpr} (simple : x.isCompound = false) :
    RestsOn shared parts [x] found := by
  intro node member compound
  obtain rfl := List.mem_singleton.mp member
  rw [simple] at compound
  cases compound

theorem each {es : List GroupExpr} (plain : ∀ e ∈ es, e.isPlain)
    (one : ∀ e ∈ es, ∀ found, RestsOn shared e.nodes ((takeShared shared e).run found).1.nodes
      ((takeShared shared e).run found).2) (found : List GroupExpr) :
    RestsOn shared (es.flatMap GroupExpr.nodes)
      (((es.mapM (takeShared shared)).run found).1.flatMap GroupExpr.nodes)
      ((es.mapM (takeShared shared)).run found).2 := by
  induction es generalizing found with
  | nil => exact fun node member => absurd member List.not_mem_nil
  | cons e rest ih =>
    have head := one e List.mem_cons_self found
    have tail := ih (fun e member => plain e (List.mem_cons_of_mem _ member))
      (fun e member => one e (List.mem_cons_of_mem _ member)) ((takeShared shared e).run found).2
    have grows := (takenFromEach_mapM
      (fun e member => takenFrom_takeShared shared (plain e (List.mem_cons_of_mem _ member)))
      ((takeShared shared e).run found).2).grows
    rw [List.mapM_cons]
    exact (head.later grows.kept).append tail

end RestsOn

theorem restsOn_takeShared (shared : GroupExpr → Bool) {e : GroupExpr} (plain : e.isPlain)
    (found : List GroupExpr) :
    RestsOn shared e.nodes ((takeShared shared e).run found).1.nodes
      ((takeShared shared e).run found).2 := by
  induction e using GroupExpr.byChildren generalizing found with
  | step e ih =>
    cases is : shared e with
    | true =>
      -- Of a shared expression only a reference is left.
      rw [takeShared.eq_def, if_pos is]
      exact .leaf rfl
    | false =>
      have plains : ∀ part ∈ e.children, part.isPlain := fun part => plain.child
      have operands := takenFromEach_mapM
        (fun part child => takenFrom_takeShared shared (plains part child)) found
      have rests := RestsOn.each plains (fun part child => ih part child (plains part child)) found
      have whole := takenFrom_takeShared shared plain found
      rw [takeShared_eq is] at whole ⊢
      exact .operation is operands.length whole.holds rests

/-! ## Outputs -/

theorem restsOn_shareExprs {outputs : List Output}
    (plain : ∀ output ∈ outputs, output.expr.isPlain) :
    List.Forall₂ (fun output output' => output'.kind = output.kind ∧ (output.isComputed = true →
      RestsOn (isShared (computedExprs outputs)) output.expr.nodes output'.expr.nodes
        ((shareExprs outputs).2.map (·.expr)))) outputs (shareExprs outputs).1 := by
  let shared := isShared (computedExprs outputs)
  rw [shareExprs_exprs]
  obtain ⟨-, each⟩ := (runs_mapM (shareOutput shared) outputs []).grows
    (R := fun found found' => found <+: found')
    (G := fun found output output' => output'.kind = output.kind ∧ (output.isComputed = true →
      RestsOn shared output.expr.nodes output'.expr.nodes found))
    (fun found => List.prefix_rfl) (fun _ _ _ => List.IsPrefix.trans)
    (by
      rintro found found' output output' kept ⟨kind, good⟩
      exact ⟨kind, fun computed => (good computed).later kept⟩)
    (by
      intro output member output' found found' step
      obtain ⟨grows, spec⟩ := shareOutput_spec shared (plain output member) found
      rw [step] at grows spec
      refine ⟨grows.kept, (spec _ List.prefix_rfl).kind, fun computed => ?_⟩
      have rests := restsOn_takeShared shared (plain output member) found
      rw [shareOutput, if_pos computed] at step
      cases step
      exact rests)
  exact each

/-- A compound part over aggregates that is left in two outputs would be shared. -/
theorem not_twoOf_shareExprs {outputs : List Output}
    (plain : ∀ output ∈ outputs, output.expr.isPlain) {part : GroupExpr}
    (compound : part.isCompound = true) (aggregated : part.hasAggregate = true) :
    ¬TwoOf (fun output => output.isComputed = true ∧ part.OccursIn output.expr)
      (shareExprs outputs).1 := by
  let found := (shareExprs outputs).2.map (·.expr)
  have foundAggregated : ∀ e ∈ found, e.hasAggregate = true := by
    intro e member
    obtain ⟨part, listed, rfl⟩ := List.mem_map.mp member
    exact (isShared_iff.mp (added_shareExprs plain listed).1).2.1
  -- Wherever the part is left, there has been the same part with all that is shared in place.
  have origins : ∀ {output output' : Output}, (output'.kind = output.kind ∧
      (output.isComputed = true → RestsOn (isShared (computedExprs outputs)) output.expr.nodes
        output'.expr.nodes found)) → output'.isComputed = true ∧ part.OccursIn output'.expr →
      output.isComputed = true ∧ ∃ origin ∈ output.expr.nodes,
        isShared (computedExprs outputs) origin = false ∧
          origin.same (part.unshare found) = true := by
    rintro output output' ⟨kind, rests⟩ ⟨computed, node, member, same⟩
    have computed : output.isComputed = true := by rwa [Output.isComputed, ← kind]
    have left : node.isCompound = true := (GroupExpr.isCompound_of_same same).trans compound
    obtain ⟨origin, within, is, back⟩ := rests computed node member left
    refine ⟨computed, origin, within, is, ?_⟩
    exact GroupExpr.same_trans (GroupExpr.same_symm (back found List.prefix_rfl))
      (GroupExpr.same_substitute same)
  intro two
  have both := two.of_related (restsOn_shareExprs plain) fun output output' => origins
  have shared : isShared (computedExprs outputs) (part.unshare found) = true := by
    refine isShared_iff.mpr ⟨GroupExpr.isCompound_substitute compound,
      GroupExpr.hasAggregate_unshare foundAggregated aggregated, ?_⟩
    obtain ⟨i, j, a, b, apart, first, second, ⟨is, origin, within, -, same⟩,
      is', origin', within', -, same'⟩ := both
    exact ⟨i, j, a, b, apart, first, second, ⟨is, origin, within, same⟩,
      is', origin', within', same'⟩
  obtain ⟨i, j, a, b, apart, first, second, ⟨is, origin, within, unshared, same⟩, -⟩ := both
  rw [isShared_of_same same, shared] at unshared
  cases unshared

theorem isComputed_of_occursIn {keys : List GroupKey} {output : Output}
    (kind : output.kind = outputKind keys output.name output.expr) {part : GroupExpr}
    (compound : part.isCompound = true) (aggregated : part.hasAggregate = true)
    (occurs : part.OccursIn output.expr) : output.isComputed = true := by
  obtain ⟨node, member, same⟩ := occurs
  have left : node.isCompound = true := (GroupExpr.isCompound_of_same same).trans compound
  have aggregate : output.expr.hasAggregate = true := GroupExpr.hasAggregate_of_mem_nodes member
    ((GroupExpr.hasAggregate_of_same same).trans aggregated)
  have computed : output.kind = .computed := by
    rw [kind]
    cases whole : output.expr with
    | reference target =>
      rw [whole] at member
      obtain rfl := List.mem_singleton.mp member
      cases left
    | literal value =>
      rw [whole] at aggregate
      cases aggregate
    | _ =>
      rw [whole] at aggregate
      simp only [outputKind, aggregate, if_true]
  rw [Output.isComputed, computed]
  rfl

/-- What sharing makes of outputs: what they have in common is shared, and nothing else changes. -/
structure SharesCommon (outputs outputs' : List Output) (shared : List SharedExpr) : Prop where
  unshared : List.Forall₂ (fun output output' => output'.name = output.name ∧
    output'.kind = output.kind ∧
      (output'.expr.unshare (shared.map (·.expr))).same output.expr = true) outputs outputs'
  /-- References to shared expressions are to ones that are there. -/
  within : ∀ output ∈ outputs', ∀ index, .shared index ∈ output.expr.references →
    index < shared.length
  untouched : List.Forall₂ (fun output output' => output.isComputed = false → output' = output)
    outputs outputs'
  distinct : (shared.map (·.expr)).Pairwise fun a b => a.same b = false
  parts : ∀ part ∈ shared, part.expr.isCompound = true ∧ part.expr.hasAggregate = true ∧
    part.expr.isPlain
  repeated : ∀ part ∈ shared, TwoOf (fun output => output.isComputed = true ∧
    part.expr.OccursIn output.expr) outputs
  /-- No two outputs that are computed from aggregates have anything to share left. -/
  apart : ∀ part : GroupExpr, part.isCompound = true → part.hasAggregate = true →
    ¬TwoOf (fun output => output.isComputed = true ∧ part.OccursIn output.expr) outputs'
  /-- Where the kinds are those of the expressions, no two outputs at all have. -/
  apartAll : ∀ keys, (∀ output ∈ outputs,
    output.kind = outputKind keys output.name output.expr) →
      ∀ part : GroupExpr, part.isCompound = true → part.hasAggregate = true →
        ¬TwoOf (fun output => part.OccursIn output.expr) outputs'
  /-- A shared expression has the name of the first output that is the same, and else none. -/
  named : ∀ part ∈ shared, ∀ name, part.name = some name ↔ ∃ before output after,
    outputs = before ++ output :: after ∧ output.isComputed = true ∧
      output.expr.same part.expr = true ∧ output.name = name ∧
        ∀ other ∈ before, other.isComputed = true → other.expr.same part.expr = false

theorem wholeName?_eq_some {outputs : List Output} {e : GroupExpr} {name : String} :
    wholeName? outputs e = some name ↔ ∃ before output after,
      outputs = before ++ output :: after ∧ output.isComputed = true ∧
        output.expr.same e = true ∧ output.name = name ∧
          ∀ other ∈ before, other.isComputed = true → other.expr.same e = false := by
  have differs : ∀ other : Output, (!(other.isComputed && other.expr == e)) = true ↔
      (other.isComputed = true → other.expr.same e = false) := by
    intro other
    show (!(other.isComputed && other.expr.same e)) = true ↔ _
    cases other.isComputed <;> simp
  rw [wholeName?, Option.map_eq_some_iff]
  simp only [List.find?_eq_some_iff_append, differs, Bool.and_eq_true]
  constructor
  · rintro ⟨output, ⟨⟨computed, same⟩, before, after, split, first⟩, rfl⟩
    exact ⟨before, output, after, split, computed, same, rfl, first⟩
  · rintro ⟨before, output, after, split, computed, same, rfl, first⟩
    exact ⟨output, ⟨⟨computed, same⟩, before, after, split, first⟩, rfl⟩

theorem SharedFrom.within {found : List GroupExpr} {output output' : Output}
    (from_ : SharedFrom found output output') (plain : output.expr.isPlain) {index : Nat}
    (refers : .shared index ∈ output'.expr.references) : index < found.length := by
  by_contra outside
  have itself : definitionIn found (.shared index) = .reference (.shared index) := by
    rw [definitionIn, List.getElem?_eq_none (Nat.le_of_not_lt outside)]
    rfl
  refine plain index ?_
  rw [← GroupExpr.references_of_same from_.same, GroupExpr.unshare,
    GroupExpr.mem_references_substitute]
  exact ⟨.shared index, refers, by simp [itself]⟩

/-- Sharing takes out of outputs what they have in common, all of it and nothing else, and does not
change what they are. -/
theorem sharesCommon_shareExprs {outputs : List Output}
    (plain : ∀ output ∈ outputs, output.expr.isPlain) :
    SharesCommon outputs (shareExprs outputs).1 (shareExprs outputs).2 := by
  have sharing := sharing_shareExprs plain
  have shared := fun part (member : part ∈ (shareExprs outputs).2) =>
    isShared_iff.mp (added_shareExprs plain member).1
  have apart : ∀ part : GroupExpr, part.isCompound = true → part.hasAggregate = true →
      ¬TwoOf (fun output => output.isComputed = true ∧ part.OccursIn output.expr)
        (shareExprs outputs).1 := fun part compound aggregated =>
    not_twoOf_shareExprs plain compound aggregated
  refine {
    unshared := sharing.each.imp fun output output' from_ => ⟨from_.name, from_.kind, from_.same⟩
    within := fun output' member index refers => ?_
    untouched := sharing.each.imp fun output output' from_ => from_.kept
    distinct := sharing.distinct
    parts := fun part member => ⟨(shared part member).1, (shared part member).2.1, ?_⟩
    repeated := fun part member => (shared part member).2.2
    apart := apart
    apartAll := fun keys kinds part compound aggregated => ?_
    named := fun part member name => ?_ }
  · obtain ⟨output, listed, from_⟩ := related_of_mem_right sharing.each member
    simpa using from_.within (plain output listed) refers
  · intro index refers
    obtain ⟨output, listed, refers⟩ := sharing.refers part member _ refers
    exact plain output listed index refers
  · have computed : ∀ output' ∈ (shareExprs outputs).1, part.OccursIn output'.expr →
        output'.isComputed = true := by
      intro output' member occurs
      obtain ⟨output, listed, from_⟩ := related_of_mem_right sharing.each member
      have same : output'.isComputed = output.isComputed := by
        rw [Output.isComputed, from_.kind, Output.isComputed]
      -- An output of another kind is what it was, and had no such part.
      cases is : output.isComputed with
      | true => rw [same, is]
      | false =>
        rw [from_.kept is] at occurs
        rw [same]
        exact isComputed_of_occursIn (kinds output listed) compound aggregated occurs
    rintro ⟨i, j, a, b, different, first, second, occurs, occurs'⟩
    exact apart part compound aggregated ⟨i, j, a, b, different, first, second,
      ⟨computed a (List.mem_of_getElem? first) occurs, occurs⟩,
      computed b (List.mem_of_getElem? second) occurs', occurs'⟩
  · rw [sharing.names part member, wholeName?_eq_some]

/-- The number of errors of two sorts, what part of all requests they are, and these requests. -/
def errorOutputs : List Output :=
  let errors : GroupExpr := .binary .add (.reference (.aggregate 0)) (.reference (.aggregate 1))
  [⟨"errors", errors, .computed⟩,
    ⟨"errorRate", .binary .div errors (.reference (.aggregate 2)), .computed⟩,
    ⟨"requests", .reference (.aggregate 2), .aggregate 2⟩]

theorem sharesCommon_errors :
    (∀ output ∈ errorOutputs, output.expr.isPlain) ∧
      (shareExprs errorOutputs).2.map (·.name) = [some "errors"] ∧
      SharesCommon errorOutputs (shareExprs errorOutputs).1 (shareExprs errorOutputs).2 := by
  have plain : ∀ output ∈ errorOutputs, output.expr.isPlain := by
    intro output listed index refers
    simp only [errorOutputs, List.mem_cons, List.not_mem_nil, or_false] at listed
    rcases listed with rfl | rfl | rfl <;> simp at refers
  exact ⟨plain, by decide, sharesCommon_shareExprs plain⟩

end Rollup
