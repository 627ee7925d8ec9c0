import Rollup.Group.Shared
import Rollup.Proofs.Group.Substitution

/-! Taking out shared expressions keeps what outputs are.

The list of found expressions only grows, and its entries are pairwise different keys. With the
found expressions put back in the place of their references, every expression is the key it was.
-/

set_option autoImplicit false

namespace Rollup

/-- References to shared expressions stand for these; all others stand for themselves. -/
def definitionIn (found : List GroupExpr) : Reference → GroupExpr
  | .shared index => (found[index]?).getD (.reference (.shared index))
  | target => .reference target

/-- The expression with the shared expressions in place. -/
def GroupExpr.unshare (found : List GroupExpr) (e : GroupExpr) : GroupExpr :=
  e.substitute (definitionIn found)

theorem GroupExpr.unshare_eq_self {e : GroupExpr} (plain : e.isPlain) (found : List GroupExpr) :
    e.unshare found = e :=
  substitute_eq_self fun target member => by
    cases target with
    | shared index => exact absurd member (plain index)
    | _ => rfl

/-! ## What is found -/

structure Grows (shared : GroupExpr → Bool) (targets : List Reference)
    (found found' : List GroupExpr) : Prop where
  kept : found <+: found'
  added : ∀ e ∈ found', e ∈ found ∨ shared e = true ∧ e.references ⊆ targets
  distinct : found.Pairwise (fun a b => a.same b = false) →
    found'.Pairwise (fun a b => a.same b = false)

namespace Grows
variable {shared : GroupExpr → Bool} {targets targets' : List Reference}
  {first second third : List GroupExpr}

theorem refl : Grows shared targets first first := ⟨List.prefix_rfl, fun _ => .inl, id⟩

theorem trans (one : Grows shared targets first second) (two : Grows shared targets second third) :
    Grows shared targets first third where
  kept := one.kept.trans two.kept
  added e member := (two.added e member).elim (one.added e) .inr
  distinct start := two.distinct (one.distinct start)

theorem mono (grows : Grows shared targets first second) (more : targets ⊆ targets') :
    Grows shared targets' first second where
  kept := grows.kept
  added e member := (grows.added e member).imp_right fun ⟨is, within⟩ =>
    ⟨is, List.Subset.trans within more⟩
  distinct := grows.distinct

end Grows

/-- A shared expression is found at the place that it is given. -/
theorem placeShared_found (e : GroupExpr) (found : List GroupExpr) :
    ∃ x, ((placeShared e).run found).2[((placeShared e).run found).1]? = some x ∧
      x.same e = true := by
  simp only [placeShared, StateT.run]
  split
  · rename_i index located
    obtain ⟨bound, is, -⟩ := List.findIdx?_eq_some_iff_getElem.mp located
    exact ⟨found[index], List.getElem?_eq_getElem bound, is⟩
  · exact ⟨e, by simp, GroupExpr.same_refl e⟩

theorem grows_placeShared {shared : GroupExpr → Bool} {e : GroupExpr} (is : shared e = true)
    (found : List GroupExpr) : Grows shared e.references found ((placeShared e).run found).2 := by
  simp only [placeShared, StateT.run]
  split
  · exact .refl
  · rename_i absent
    refine ⟨List.prefix_append _ _, fun x member => ?_, fun start => ?_⟩
    · rcases List.mem_append.mp member with old | new
      · exact .inl old
      · obtain rfl := List.mem_singleton.mp new
        exact .inr ⟨is, fun _ => id⟩
    · refine List.pairwise_append.mpr ⟨start, List.pairwise_singleton _ _, fun a old b new => ?_⟩
      obtain rfl := List.mem_singleton.mp new
      exact List.findIdx?_eq_none_iff.mp absent a old

/-! ## What is put in place -/

-- One notion for an expression and for the items of a list: only what has to hold of the rest, with
-- the shared expressions back in place, tells them apart. It has to hold for every list that the
-- found expressions grow into, because later outputs add to them.

/-- The rest of something that shared expressions are taken out of, by the references of both. -/
structure Taken (shared : GroupExpr → Bool) (targets : List Reference) (found : List GroupExpr)
    (rest : List Reference) (found' : List GroupExpr) (Holds : List GroupExpr → Prop) : Prop where
  grows : Grows shared targets found found'
  holds : ∀ final, found' <+: final → Holds final
  refers : ∀ target ∈ rest, target ∈ targets ∨ ∃ index, target = .shared index

namespace Taken
variable {shared : GroupExpr → Bool} {targets targets' rest rest' : List Reference}
  {first second third : List GroupExpr} {Holds Holds' : List GroupExpr → Prop}

theorem nothing (holds : ∀ final, Holds final) : Taken shared targets first targets first Holds :=
  ⟨.refl, fun final _ => holds final, fun _ => .inl⟩

theorem append (one : Taken shared targets first rest second Holds)
    (two : Taken shared targets' second rest' third Holds') :
    Taken shared (targets ++ targets') first (rest ++ rest') third
      fun final => Holds final ∧ Holds' final where
  grows := (one.grows.mono (List.subset_append_left _ _)).trans
    (two.grows.mono (List.subset_append_right _ _))
  holds final kept := ⟨one.holds final (two.grows.kept.trans kept), two.holds final kept⟩
  refers target member := by
    rw [List.mem_append]
    rcases List.mem_append.mp member with member | member
    · exact (one.refers target member).imp_left .inl
    · exact (two.refers target member).imp_left .inr

theorem imp (taken : Taken shared targets first rest second Holds)
    (each : ∀ final, Holds final → Holds' final) :
    Taken shared targets first rest second Holds' :=
  ⟨taken.grows, fun final kept => each final (taken.holds final kept), taken.refers⟩

end Taken

/-- What is left of an expression is the same key, with the shared expressions back in place. -/
def TakenFrom (shared : GroupExpr → Bool) (e : GroupExpr) (found : List GroupExpr)
    (result : GroupExpr × List GroupExpr) : Prop :=
  Taken shared e.references found result.1.references result.2
    fun final => (result.1.unshare final).same e = true

def TakenFromEach (shared : GroupExpr → Bool) (es : List GroupExpr)
    (found : List GroupExpr) (result : List GroupExpr × List GroupExpr) : Prop :=
  Taken shared (es.flatMap GroupExpr.references) found (result.1.flatMap GroupExpr.references)
    result.2 fun final => GroupExpr.sameItems (result.1.map (GroupExpr.unshare final)) es = true

section
variable {shared : GroupExpr → Bool} {es xs : List GroupExpr} {found last : List GroupExpr}

theorem TakenFromEach.length (taken : TakenFromEach shared es found (xs, last)) :
    xs.length = es.length := by
  have same := GroupExpr.sameItems_iff.mp (taken.holds last List.prefix_rfl)
  simpa using same.length_eq

theorem TakenFrom.operation {e : GroupExpr} (plain : e.target? = none)
    (taken : TakenFromEach shared e.children found (xs, last)) :
    TakenFrom shared e found (e.withOperands xs, last) := by
  unfold TakenFrom
  rw [GroupExpr.references_eq plain,
    GroupExpr.references_eq ((GroupExpr.target?_withOperands ..).trans plain),
    GroupExpr.children_withOperands taken.length]
  refine taken.imp fun final same => ?_
  rw [GroupExpr.unshare, GroupExpr.substitute_withOperands plain taken.length]
  exact GroupExpr.same_withOperands same

end

theorem takenFrom_placeShared {shared : GroupExpr → Bool} {e : GroupExpr}
    (is : shared e = true) (found : List GroupExpr) :
    TakenFrom shared e found
      (.reference (.shared ((placeShared e).run found).1), ((placeShared e).run found).2) where
  grows := grows_placeShared is found
  holds final kept := by
    obtain ⟨x, place, same⟩ := placeShared_found e found
    obtain ⟨rest, rfl⟩ := kept
    obtain ⟨bound, -⟩ := List.getElem?_eq_some_iff.mp place
    rw [GroupExpr.unshare, GroupExpr.substitute_reference, definitionIn,
      List.getElem?_append_left bound, place]
    exact same
  refers target member := .inr ⟨_, List.mem_singleton.mp member⟩

theorem takeSharedEach_eq (shared : GroupExpr → Bool) (es : List GroupExpr) :
    takeSharedEach shared es = es.mapM (takeShared shared) := by
  induction es with
  | nil => rfl
  | cons e rest ih => rw [takeSharedEach, ih, List.mapM_cons]

theorem takeShared_eq {shared : GroupExpr → Bool} {e : GroupExpr} (is : shared e = false) :
    takeShared shared e =
      e.children.mapM (takeShared shared) >>= fun es => pure (e.withOperands es) := by
  rw [takeShared.eq_def, if_neg (by simp [is])]
  cases e <;> simp [GroupExpr.children, GroupExpr.withOperands, takeSharedEach_eq]

theorem takenFromEach_mapM {shared : GroupExpr → Bool} {es : List GroupExpr}
    (each : ∀ e ∈ es, ∀ found, TakenFrom shared e found ((takeShared shared e).run found))
    (found : List GroupExpr) :
    TakenFromEach shared es found ((es.mapM (takeShared shared)).run found) := by
  induction es generalizing found with
  | nil => exact .nothing fun _ => rfl
  | cons e rest ih =>
    have head := each e List.mem_cons_self found
    have tail := ih (fun e member => each e (List.mem_cons_of_mem _ member))
      ((takeShared shared e).run found).2
    rw [List.mapM_cons]
    exact (head.append tail).imp fun _ => Bool.and_eq_true_iff.mpr

/-- Shared expressions leave references behind that stand for equal keys. -/
theorem takenFrom_takeShared (shared : GroupExpr → Bool) {e : GroupExpr} (plain : e.isPlain)
    (found : List GroupExpr) : TakenFrom shared e found ((takeShared shared e).run found) := by
  induction e using GroupExpr.byChildren generalizing found with
  | step e ih =>
    cases is : shared e with
    | true =>
      -- A shared expression is replaced as a whole, whatever its parts are.
      rw [takeShared.eq_def, if_pos is]
      exact takenFrom_placeShared is found
    | false =>
      rw [takeShared_eq is]
      cases target : e.target? with
      | some target =>
        obtain rfl := GroupExpr.target?_eq_some.mp target
        refine .nothing fun final => ?_
        exact (GroupExpr.unshare_eq_self plain final).symm ▸ GroupExpr.same_refl _
      | none =>
        exact .operation target
          (takenFromEach_mapM (fun part child => ih part child (plain.child child)) found)

/-! ## Outputs -/

/-- What an output is after sharing. -/
structure SharedFrom (found : List GroupExpr) (output output' : Output) : Prop where
  name : output'.name = output.name
  kind : output'.kind = output.kind
  same : (output'.expr.unshare found).same output.expr = true
  refers : ∀ target ∈ output'.expr.references,
    target ∈ output.expr.references ∨ ∃ index, target = .shared index
  kept : output.isComputed = false → output' = output

theorem SharedFrom.compound {found : List GroupExpr} {output output' : Output}
    (from_ : SharedFrom found output output') (is : output.expr.isCompound = true) :
    output'.expr.isCompound = true ∨ ∃ index, output'.expr = .reference (.shared index) := by
  -- What is left is the same key, so it is compound itself or a reference to something shared.
  have same := from_.same
  cases left : output'.expr with
  | reference target =>
    by_cases shared : ∃ index, target = .shared index
    · obtain ⟨index, rfl⟩ := shared
      exact .inr ⟨index, rfl⟩
    · have kept : definitionIn found target = .reference target := by
        cases target <;> first | rfl | exact absurd ⟨_, rfl⟩ shared
      rw [left, GroupExpr.unshare, GroupExpr.substitute_reference, kept] at same
      cases right : output.expr <;> simp_all [GroupExpr.same, GroupExpr.isCompound]
  | literal value =>
    rw [left, GroupExpr.unshare, GroupExpr.substitute_literal] at same
    cases right : output.expr <;> simp_all [GroupExpr.same, GroupExpr.isCompound]
  | _ => exact .inl rfl

theorem shareOutput_spec (shared : GroupExpr → Bool) {output : Output}
    (plain : output.expr.isPlain) (found : List GroupExpr) :
    Grows shared output.expr.references found ((shareOutput shared output).run found).2 ∧
      ∀ final, ((shareOutput shared output).run found).2 <+: final →
        SharedFrom final output ((shareOutput shared output).run found).1 := by
  unfold shareOutput
  split
  · rename_i computed
    have taken := takenFrom_takeShared shared plain found
    exact ⟨taken.grows, fun final kept =>
      ⟨rfl, rfl, taken.holds final kept, taken.refers, fun other => by simp_all⟩⟩
  · refine ⟨.refl, fun final _ => ⟨rfl, rfl, ?_, fun _ => .inl, fun _ => rfl⟩⟩
    exact (GroupExpr.unshare_eq_self plain final).symm ▸ GroupExpr.same_refl _

structure Sharing (outputs outputs' : List Output) (shared : List SharedExpr) : Prop where
  each : List.Forall₂ (SharedFrom (shared.map (·.expr))) outputs outputs'
  refers : ∀ part ∈ shared, ∀ target ∈ part.expr.references,
    ∃ output ∈ outputs, target ∈ output.expr.references
  compound : ∀ part ∈ shared, part.expr.isCompound = true
  distinct : (shared.map (·.expr)).Pairwise fun a b => a.same b = false
  names : ∀ part ∈ shared, part.name = wholeName? outputs part.expr

theorem shareExprs_exprs (outputs : List Output) : (shareExprs outputs).2.map (·.expr) =
    ((outputs.mapM (shareOutput (isShared (computedExprs outputs)))).run []).2 := by
  let run := (outputs.mapM (shareOutput (isShared (computedExprs outputs)))).run []
  show (run.2.map fun e => SharedExpr.mk e (wholeName? outputs e)).map (·.expr) = run.2
  rw [List.map_map]
  exact List.map_id _

theorem shareExprs_spec {outputs : List Output}
    (plain : ∀ output ∈ outputs, output.expr.isPlain) :
    Grows (isShared (computedExprs outputs))
        (outputs.flatMap fun output => output.expr.references) []
        ((shareExprs outputs).2.map (·.expr)) ∧
      List.Forall₂ (SharedFrom ((shareExprs outputs).2.map (·.expr))) outputs
        (shareExprs outputs).1 := by
  let shared := isShared (computedExprs outputs)
  rw [shareExprs_exprs]
  -- Later outputs only add to what is found, so an output that is fine stays fine.
  obtain ⟨grows, each⟩ := (runs_mapM (shareOutput shared) outputs []).grows
    (R := Grows shared (outputs.flatMap fun output => output.expr.references))
    (G := fun found output output' => ∀ final, found <+: final → SharedFrom final output output')
    (fun _ => .refl) (fun _ _ _ => .trans)
    (fun _ _ _ _ grows good final kept => good final (grows.kept.trans kept))
    (by
      intro output member output' found found' step
      obtain ⟨grows, spec⟩ := shareOutput_spec shared (plain output member) found
      rw [step] at grows spec
      exact ⟨grows.mono fun target refers => List.mem_flatMap.mpr ⟨output, member, refers⟩, spec⟩)
  exact ⟨grows, each.imp fun output output' good => good _ List.prefix_rfl⟩

theorem added_shareExprs {outputs : List Output} (plain : ∀ output ∈ outputs, output.expr.isPlain)
    {part : SharedExpr} (member : part ∈ (shareExprs outputs).2) :
    isShared (computedExprs outputs) part.expr = true ∧
      part.expr.references ⊆ outputs.flatMap fun output => output.expr.references :=
  ((shareExprs_spec plain).1.added _ (List.mem_map_of_mem member)).resolve_left List.not_mem_nil

theorem sharing_shareExprs {outputs : List Output}
    (plain : ∀ output ∈ outputs, output.expr.isPlain) :
    Sharing outputs (shareExprs outputs).1 (shareExprs outputs).2 where
  each := (shareExprs_spec plain).2
  refers part member target refers := List.mem_flatMap.mp ((added_shareExprs plain member).2 refers)
  compound part member := by
    have is := (added_shareExprs plain member).1
    simp only [isShared, Bool.and_eq_true] at is
    exact is.1.1
  distinct := (shareExprs_spec plain).1.distinct List.Pairwise.nil
  names part member := by
    obtain ⟨e, -, rfl⟩ := List.mem_map.mp member
    rfl

/-! ## Outputs that are shared as a whole -/

theorem occurrences_of_same (wholes : List GroupExpr) {a b : GroupExpr}
    (equal : a.same b = true) : occurrences wholes a = occurrences wholes b := by
  have test : ∀ node : GroupExpr, (node == a) = (node == b) := fun node => BEq.congr_right equal
  simp only [occurrences, test]

def SharedWhole (found : List GroupExpr) (output output' : Output) : Prop :=
  ∃ index x, output'.expr = .reference (.shared index) ∧ found[index]? = some x ∧
    x.same output.expr = true

theorem sharedWhole_shareOutput {shared : GroupExpr → Bool} {output : Output}
    (computed : output.isComputed = true) (is : shared output.expr = true)
    (found : List GroupExpr) :
    SharedWhole ((shareOutput shared output).run found).2 output
      ((shareOutput shared output).run found).1 := by
  obtain ⟨x, place, same⟩ := placeShared_found output.expr found
  unfold shareOutput
  rw [if_pos computed, takeShared.eq_def, if_pos is]
  exact ⟨_, x, rfl, place, same⟩

/-- An output that is shared as a whole becomes a reference. -/
theorem sharedWhole_shareExprs {outputs : List Output}
    (plain : ∀ output ∈ outputs, output.expr.isPlain) :
    List.Forall₂ (fun output output' => output'.name = output.name ∧ output'.kind = output.kind ∧
      (output.isComputed = true → isShared (computedExprs outputs) output.expr = true →
        SharedWhole ((shareExprs outputs).2.map (·.expr)) output output'))
      outputs (shareExprs outputs).1 := by
  let shared := isShared (computedExprs outputs)
  rw [shareExprs_exprs]
  obtain ⟨-, each⟩ := (runs_mapM (shareOutput shared) outputs []).grows
    (R := fun found found' => found <+: found')
    (G := fun found output output' => output'.name = output.name ∧ output'.kind = output.kind ∧
      (output.isComputed = true → shared output.expr = true →
        ∀ final, found <+: final → SharedWhole final output output'))
    (fun found => List.prefix_rfl) (fun _ _ _ => List.IsPrefix.trans)
    (by
      rintro found found' output output' kept ⟨name, kind, good⟩
      exact ⟨name, kind, fun computed is final later => good computed is final (kept.trans later)⟩)
    (by
      intro output member output' found found' step
      obtain ⟨grows, spec⟩ := shareOutput_spec shared (plain output member) found
      rw [step] at grows spec
      have from_ := spec _ List.prefix_rfl
      refine ⟨grows.kept, from_.name, from_.kind, fun computed is final later => ?_⟩
      have whole := sharedWhole_shareOutput computed is found
      rw [step] at whole
      obtain ⟨index, x, same, place, equal⟩ := whole
      obtain ⟨rest, rfl⟩ := later
      obtain ⟨bound, -⟩ := List.getElem?_eq_some_iff.mp place
      exact ⟨index, x, same, (List.getElem?_append_left bound).trans place, equal⟩)
  exact each.imp fun output output' good => ⟨good.1, good.2.1, fun computed is =>
    good.2.2 computed is _ List.prefix_rfl⟩

end Rollup
