import Mathlib.Data.List.Forall2
import Mathlib.Logic.Relation

/-! What a computation says about its parts when it succeeds.

A bind succeeds when both of its parts do, and a function succeeds on all elements of a list when it
succeeds on each of them. For computations with a state the elements of a list are taken one after
another, which `Runs` spells out. A computation that fails has failed in one of its parts, so it has
the errors of its parts only. Where states outlive errors, the state is that in which this part
ends.
-/

set_option autoImplicit false

namespace Rollup

section Related
variable {α β γ : Type} {R : α → β → Prop} {S : β → γ → Prop} {as : List α} {bs : List β}

theorem related_of_mem_left (related : List.Forall₂ R as bs) {a : α} (member : a ∈ as) :
    ∃ b ∈ bs, R a b := by
  induction related with
  | nil => cases member
  | cons head _ ih =>
    rcases List.mem_cons.mp member with rfl | member
    · exact ⟨_, List.mem_cons_self, head⟩
    · obtain ⟨b, listed, tail⟩ := ih member
      exact ⟨b, List.mem_cons_of_mem _ listed, tail⟩

theorem related_of_mem_right (related : List.Forall₂ R as bs) {b : β} (member : b ∈ bs) :
    ∃ a ∈ as, R a b :=
  related_of_mem_left related.flip member

theorem related_getElem? (related : List.Forall₂ R as bs) {index : Nat} {a : α}
    (found : as[index]? = some a) : ∃ b, bs[index]? = some b ∧ R a b := by
  induction related generalizing index with
  | nil => cases found
  | cons head _ ih =>
    cases index with
    | zero =>
      obtain rfl := Option.some.inj found
      exact ⟨_, rfl, head⟩
    | succ index => exact ih found

theorem forall₂_imp_of_mem {T : α → β → Prop} (related : List.Forall₂ R as bs)
    (each : ∀ a ∈ as, ∀ b, R a b → T a b) : List.Forall₂ T as bs := by
  induction related with
  | nil => exact .nil
  | cons head _ ih =>
    exact .cons (each _ List.mem_cons_self _ head)
      (ih fun a member => each a (List.mem_cons_of_mem _ member))

theorem related_comp {cs : List γ} (first : List.Forall₂ R as bs) (second : List.Forall₂ S bs cs) :
    List.Forall₂ (Relation.Comp R S) as cs := by
  induction first generalizing cs with
  | nil =>
    cases second
    exact .nil
  | cons head _ ih =>
    cases second with
    | cons head' tail => exact .cons ⟨_, head, head'⟩ (ih tail)

theorem map_eq_iff_related {δ : Type} {f : α → δ} {g : β → δ} :
    as.map f = bs.map g ↔ List.Forall₂ (fun a b => f a = g b) as bs := by
  rw [← List.forall₂_eq_eq_eq, List.forall₂_map_left_iff, List.forall₂_map_right_iff]

theorem filter_map_of_related {δ : Type} {p : α → Bool} {q : β → Bool} {f : α → δ} {g : β → δ}
    (related : List.Forall₂ R as bs) (each : ∀ a b, R a b → q b = p a ∧ g b = f a) :
    (bs.filter q).map g = (as.filter p).map f := by
  induction related with
  | nil => rfl
  | cons head _ ih =>
    obtain ⟨kept, taken⟩ := each _ _ head
    rw [List.filter_cons, List.filter_cons, kept]
    split
    · rw [List.map_cons, List.map_cons, ih, taken]
    · exact ih

theorem filterMap_of_related {δ : Type} {f : α → Option δ} {g : β → Option δ}
    (related : List.Forall₂ R as bs) (each : ∀ a b, R a b → g b = f a) :
    bs.filterMap g = as.filterMap f := by
  induction related with
  | nil => rfl
  | cons head _ ih => rw [List.filterMap_cons, List.filterMap_cons, each _ _ head, ih]

theorem related_between {cs : List γ} (related : List.Forall₂ (Relation.Comp R S) as cs) :
    ∃ bs, List.Forall₂ R as bs ∧ List.Forall₂ S bs cs := by
  induction related with
  | nil => exact ⟨[], .nil, .nil⟩
  | cons head _ ih =>
    obtain ⟨b, first, second⟩ := head
    obtain ⟨bs, firsts, seconds⟩ := ih
    exact ⟨b :: bs, .cons first firsts, .cons second seconds⟩

theorem place_unique [BEq α] [EquivBEq α]
    (distinct : as.Pairwise fun x y => (x == y) = false) {i j : Nat} {x y : α}
    (first : as[i]? = some x) (second : as[j]? = some y) (equal : (x == y) = true) : i = j := by
  obtain ⟨bound, rfl⟩ := List.getElem?_eq_some_iff.mp first
  obtain ⟨bound', rfl⟩ := List.getElem?_eq_some_iff.mp second
  rcases Nat.lt_trichotomy i j with before | same | behind
  · cases equal.symm.trans (List.pairwise_iff_getElem.mp distinct i j bound bound' before)
  · exact same
  · cases (BEq.symm equal).symm.trans
      (List.pairwise_iff_getElem.mp distinct j i bound' bound behind)

end Related

section Failing
variable {ε α β : Type}

theorem bind_eq_ok {x : Except ε α} {f : α → Except ε β} {b : β} :
    (x >>= f) = .ok b ↔ ∃ a, x = .ok a ∧ f a = .ok b := by
  cases x with
  | error fault => simp [bind, Except.bind]
  | ok a => simp [bind, Except.bind]

theorem bind_eq_error {x : Except ε α} {f : α → Except ε β} {fault : ε} :
    (x >>= f) = .error fault ↔ x = .error fault ∨ ∃ a, x = .ok a ∧ f a = .error fault := by
  cases x with
  | error other => simp [bind, Except.bind]
  | ok a => simp [bind, Except.bind]

theorem pure_eq_ok {a b : α} : (pure a : Except ε α) = .ok b ↔ a = b :=
  ⟨fun same => Except.ok.inj same, congrArg Except.ok⟩

theorem bind_pure_eq_ok {x : Except ε α} {f : α → β} {b : β} :
    (x >>= fun a => pure (f a)) = .ok b ↔ ∃ a, x = .ok a ∧ b = f a := by
  simp only [bind_eq_ok, pure_eq_ok, eq_comm (a := b)]

theorem toOption_eq_some {x : Except ε α} {a : α} : x.toOption = some a ↔ x = .ok a := by
  cases x <;> simp [Except.toOption]

theorem isSome_toOption {x : Except ε α} : x.toOption.isSome = true ↔ ∃ a, x = .ok a := by
  simp only [Option.isSome_iff_exists, toOption_eq_some]

theorem any_toOption {x : Except ε α} {p : α → Bool} :
    x.toOption.any p = true ↔ ∃ a, x = .ok a ∧ p a = true := by
  simp only [Option.any_eq_true, toOption_eq_some]

theorem map_eq_ok {x : Except ε α} {f : α → β} {b : β} :
    x.map f = .ok b ↔ ∃ a, x = .ok a ∧ f a = b := by
  cases x with
  | error fault => simp [Except.map]
  | ok a => simp [Except.map]

theorem map_eq_error {x : Except ε α} {f : α → β} {fault : ε} :
    x.map f = .error fault ↔ x = .error fault := by
  cases x <;> simp [Except.map]

theorem mapError_eq_ok {ε' : Type} {x : Except ε α} {f : ε → ε'} {a : α} :
    x.mapError f = .ok a ↔ x = .ok a := by
  cases x <;> simp [Except.mapError]

theorem mapError_eq_error {ε' : Type} {x : Except ε α} {f : ε → ε'} {fault : ε'} :
    x.mapError f = .error fault ↔ ∃ other, x = .error other ∧ f other = fault := by
  cases x <;> simp [Except.mapError]

theorem mapM_eq_ok {f : α → Except ε β} {as : List α} {bs : List β} :
    as.mapM f = .ok bs ↔ List.Forall₂ (fun a b => f a = .ok b) as bs := by
  induction as generalizing bs with
  | nil =>
    rw [List.mapM_nil, pure_eq_ok, List.forall₂_nil_left_iff]
    exact eq_comm
  | cons a rest ih =>
    simp only [List.mapM_cons, bind_eq_ok, pure_eq_ok, ih, List.forall₂_cons_left_iff]
    constructor
    · rintro ⟨b, first, tail, others, rfl⟩
      exact ⟨b, tail, first, others, rfl⟩
    · rintro ⟨b, tail, first, others, rfl⟩
      exact ⟨b, first, tail, others, rfl⟩

theorem mapM_eq_error {f : α → Except ε β} {as : List α} {fault : ε}
    (failed : as.mapM f = .error fault) : ∃ a ∈ as, f a = .error fault := by
  induction as with
  | nil => cases failed
  | cons a rest ih =>
    rw [List.mapM_cons] at failed
    rcases bind_eq_error.mp failed with first | ⟨b, -, failed⟩
    · exact ⟨a, List.mem_cons_self, first⟩
    · rcases bind_eq_error.mp failed with others | ⟨bs, -, failed⟩
      · obtain ⟨c, listed, failed⟩ := ih others
        exact ⟨c, List.mem_cons_of_mem _ listed, failed⟩
      · cases failed

theorem mapM_congr_of_mem {f g : α → Except ε β} {as : List α} (each : ∀ a ∈ as, f a = g a) :
    as.mapM f = as.mapM g := by
  induction as with
  | nil => rfl
  | cons a rest ih =>
    obtain ⟨first, others⟩ := List.forall_mem_cons.mp each
    rw [List.mapM_cons, List.mapM_cons, first, ih others]

theorem forM_eq_ok {f : α → Except ε Unit} {as : List α} :
    as.forM f = .ok () ↔ ∀ a ∈ as, f a = .ok () := by
  induction as with
  | nil => exact ⟨fun _ _ member => absurd member List.not_mem_nil, fun _ => rfl⟩
  | cons a rest ih =>
    rw [List.forall_mem_cons, ← ih]
    refine bind_eq_ok.trans ?_
    exact ⟨fun ⟨(), first, others⟩ => ⟨first, others⟩, fun ⟨first, others⟩ => ⟨(), first, others⟩⟩

theorem forM_eq_error {f : α → Except ε Unit} {as : List α} {fault : ε}
    (failed : as.forM f = .error fault) : ∃ a ∈ as, f a = .error fault := by
  induction as with
  | nil => cases failed
  | cons a rest ih =>
    rcases bind_eq_error.mp failed with first | ⟨⟨⟩, -, others⟩
    · exact ⟨a, List.mem_cons_self, first⟩
    · obtain ⟨b, listed, failed⟩ := ih others
      exact ⟨b, List.mem_cons_of_mem _ listed, failed⟩

/-- What every step keeps, a whole run from the left keeps. -/
theorem foldlM_invariant {I : β → Prop} {step : β → α → Except ε β} {as : List α}
    (each : ∀ b a c, step b a = .ok c → I b → I c) {first last : β}
    (ok : as.foldlM step first = .ok last) (start : I first) : I last := by
  induction as generalizing first with
  | nil => exact pure_eq_ok.mp ok ▸ start
  | cons a rest ih =>
    rw [List.foldlM_cons, bind_eq_ok] at ok
    obtain ⟨next, ok, oks⟩ := ok
    exact ih oks (each first a next ok start)

/-- All errors of a computation have a property. -/
def FailsOnly (P : ε → Prop) (x : Except ε α) : Prop := ∀ fault, x = .error fault → P fault

namespace FailsOnly
variable {P Q : ε → Prop} {x : Except ε α}

theorem ok (a : α) : FailsOnly P (.ok a) := fun _ failed => nomatch failed

theorem error {fault : ε} (is : P fault) : FailsOnly P (.error fault : Except ε α) := by
  rintro _ ⟨⟩
  exact is

theorem imp (only : FailsOnly P x) (each : ∀ fault, P fault → Q fault) : FailsOnly Q x :=
  fun fault failed => each fault (only fault failed)

theorem bind_of_ok {f : α → Except ε β} (first : FailsOnly P x)
    (next : ∀ a, x = .ok a → FailsOnly P (f a)) : FailsOnly P (x >>= f) := by
  intro fault failed
  rcases bind_eq_error.mp failed with failed | ⟨a, ok, failed⟩
  · exact first fault failed
  · exact next a ok fault failed

theorem bind {f : α → Except ε β} (first : FailsOnly P x) (next : ∀ a, FailsOnly P (f a)) :
    FailsOnly P (x >>= f) := first.bind_of_ok fun a _ => next a

theorem map (f : α → β) (only : FailsOnly P x) : FailsOnly P (x.map f) := by
  cases x with
  | error fault => exact error (only fault rfl)
  | ok a => exact ok (f a)

theorem mapM {f : α → Except ε β} {as : List α} (each : ∀ a ∈ as, FailsOnly P (f a)) :
    FailsOnly P (as.mapM f) := by
  intro fault failed
  obtain ⟨a, listed, failed⟩ := mapM_eq_error failed
  exact each a listed fault failed

end FailsOnly

end Failing

section Stateful
variable {σ ε α β : Type}

theorem run_bind_eq_ok {x : StateT σ (Except ε) α} {f : α → StateT σ (Except ε) β} {s : σ}
    {result : β × σ} :
    (x >>= f).run s = .ok result ↔ ∃ a t, x.run s = .ok (a, t) ∧ (f a).run t = .ok result := by
  rw [StateT.run_bind, bind_eq_ok]
  exact ⟨fun ⟨⟨a, t⟩, first, second⟩ => ⟨a, t, first, second⟩,
    fun ⟨a, t, first, second⟩ => ⟨(a, t), first, second⟩⟩

theorem run_bind_eq_error {x : StateT σ (Except ε) α} {f : α → StateT σ (Except ε) β} {s : σ}
    {fault : ε} :
    (x >>= f).run s = .error fault ↔
      x.run s = .error fault ∨ ∃ a t, x.run s = .ok (a, t) ∧ (f a).run t = .error fault := by
  rw [StateT.run_bind, bind_eq_error]
  exact or_congr_right ⟨fun ⟨⟨a, t⟩, first, second⟩ => ⟨a, t, first, second⟩,
    fun ⟨a, t, first, second⟩ => ⟨(a, t), first, second⟩⟩

theorem run_pure_eq_ok {a b : α} {s t : σ} :
    (pure a : StateT σ (Except ε) α).run s = .ok (b, t) ↔ a = b ∧ s = t := by
  rw [StateT.run_pure, pure_eq_ok, Prod.mk.injEq]

theorem run_lift_eq_ok {x : Except ε α} {a : α} {s t : σ} :
    (liftM x : StateT σ (Except ε) α).run s = .ok (a, t) ↔ x = .ok a ∧ s = t := by
  cases x with
  | error fault => simp [liftM, monadLift, MonadLift.monadLift, StateT.run, StateT.lift, bind,
      Except.bind]
  | ok b =>
    simp [liftM, monadLift, MonadLift.monadLift, StateT.run, StateT.lift, bind, Except.bind, pure,
      Except.pure]

/-- All errors of a computation have a property, whatever the state it starts in. -/
def RunFailsOnly (P : ε → Prop) (x : StateT σ (Except ε) α) : Prop := ∀ s, FailsOnly P (x.run s)

namespace RunFailsOnly
variable {P : ε → Prop} {x : StateT σ (Except ε) α}

theorem pure (a : α) : RunFailsOnly P (pure a : StateT σ (Except ε) α) := fun s => .ok (a, s)

theorem throw {fault : ε} (is : P fault) :
    RunFailsOnly P (throw fault : StateT σ (Except ε) α) := fun _ => .error is

theorem lift {x : Except ε α} (only : FailsOnly P x) :
    RunFailsOnly P (liftM x : StateT σ (Except ε) α) := fun s => only.bind fun a => .ok (a, s)

theorem bind {f : α → StateT σ (Except ε) β} (first : RunFailsOnly P x)
    (next : ∀ a, RunFailsOnly P (f a)) : RunFailsOnly P (x >>= f) := fun s =>
  (first s).bind fun (a, t) => next a t

theorem bind_of_ok {x : Except ε α} {f : α → StateT σ (Except ε) β} (first : FailsOnly P x)
    (next : ∀ a, x = .ok a → RunFailsOnly P (f a)) :
    RunFailsOnly P ((liftM x : StateT σ (Except ε) α) >>= f) := fun s => by
  cases found : x with
  | error fault => exact .error (first fault found)
  | ok a => exact next a found s

theorem mapM {f : α → StateT σ (Except ε) β} {as : List α}
    (each : ∀ a ∈ as, RunFailsOnly P (f a)) : RunFailsOnly P (as.mapM f) := by
  induction as with
  | nil => exact pure []
  | cons a rest ih =>
    rw [List.mapM_cons]
    refine (each a List.mem_cons_self).bind fun b => ?_
    exact (ih fun a member => each a (List.mem_cons_of_mem _ member)).bind fun bs => pure (b :: bs)

end RunFailsOnly

/-- Steps for the elements of a list, one after another. -/
inductive Runs (step : α → σ → β → σ → Prop) : List α → σ → List β → σ → Prop where
  | nil (s : σ) : Runs step [] s [] s
  | cons {a : α} {rest : List α} {b : β} {others : List β} {s t u : σ} :
      step a s b t → Runs step rest t others u → Runs step (a :: rest) s (b :: others) u

-- The state after one element is the state before the next, whatever the results are.
theorem mapM_run_eq_ok {f : α → StateT σ (Except ε) β} {as : List α} {bs : List β} {s t : σ} :
    (as.mapM f).run s = .ok (bs, t) ↔ Runs (fun a u b v => (f a).run u = .ok (b, v)) as s bs t := by
  induction as generalizing bs s with
  | nil =>
    rw [List.mapM_nil, run_pure_eq_ok]
    constructor
    · rintro ⟨rfl, rfl⟩
      exact .nil s
    · intro run
      cases run
      exact ⟨rfl, rfl⟩
  | cons a rest ih =>
    simp only [List.mapM_cons, run_bind_eq_ok, run_pure_eq_ok]
    constructor
    · rintro ⟨b, u, first, others, v, tail, rfl, rfl⟩
      exact .cons first (ih.mp tail)
    · intro run
      cases run with
      | cons first tail => exact ⟨_, _, first, _, _, ih.mpr tail, rfl, rfl⟩

theorem runs_mapM (f : α → StateM σ β) (as : List α) (s : σ) :
    Runs (fun a u b v => (f a).run u = (b, v)) as s ((as.mapM f).run s).1
      ((as.mapM f).run s).2 := by
  induction as generalizing s with
  | nil => exact .nil s
  | cons a rest ih =>
    rw [List.mapM_cons]
    exact .cons rfl (ih ((f a).run s).2)

namespace Runs
variable {step : α → σ → β → σ → Prop} {as : List α} {bs : List β} {s t : σ}

theorem imp_of_mem {step' : α → σ → β → σ → Prop} (run : Runs step as s bs t)
    (each : ∀ a ∈ as, ∀ b u v, step a u b v → step' a u b v) : Runs step' as s bs t := by
  induction run with
  | nil s => exact .nil s
  | cons first _ ih =>
    exact .cons (each _ List.mem_cons_self _ _ _ first)
      (ih fun a member => each a (List.mem_cons_of_mem _ member))

/-- What every single step keeps, a whole run keeps, and what it gives holds of all results. -/
theorem invariant {I : σ → Prop} {G : α → β → Prop} (run : Runs step as s bs t)
    (each : ∀ a ∈ as, ∀ b u v, step a u b v → I u → I v ∧ G a b)
    (start : I s) : I t ∧ List.Forall₂ G as bs := by
  -- The invariant is handed on from state to state; the results are collected on the way back.
  induction run with
  | nil s => exact ⟨start, .nil⟩
  | cons first _ ih =>
    obtain ⟨inv, good⟩ := each _ List.mem_cons_self _ _ _ first start
    obtain ⟨last, others⟩ := ih (fun a member => each a (List.mem_cons_of_mem _ member)) inv
    exact ⟨last, .cons good others⟩

/-- If every single step makes its state grow, a whole run does, and what holds of a result from its
step on holds of it in the end. -/
theorem grows {R : σ → σ → Prop} {G : σ → α → β → Prop} (run : Runs step as s bs t)
    (refl : ∀ u, R u u) (trans : ∀ u v w, R u v → R v w → R u w)
    (mono : ∀ u v a b, R u v → G u a b → G v a b)
    (each : ∀ a ∈ as, ∀ b u v, step a u b v → R u v ∧ G v a b) :
    R s t ∧ List.Forall₂ (G t) as bs := by
  -- The first result is good in the state after its step and has to survive all later steps.
  induction run with
  | nil s => exact ⟨refl s, .nil⟩
  | cons first _ ih =>
    obtain ⟨grows, good⟩ := each _ List.mem_cons_self _ _ _ first
    obtain ⟨later, others⟩ := ih fun a member => each a (List.mem_cons_of_mem _ member)
    exact ⟨trans _ _ _ grows later, .cons (mono _ _ _ _ later good) others⟩

end Runs

end Stateful

section Lasting
variable {σ ε α β : Type} {s t u : σ} {fault : ε} {a : α} {b : β} {as : List α} {bs : List β}

theorem bind_of_ok {x : EStateM ε σ α} {f : α → EStateM ε σ β} (ok : x s = .ok a t) :
    (x >>= f) s = f a t := by
  simp only [bind, EStateM.bind, ok]

theorem bind_of_error {x : EStateM ε σ α} {f : α → EStateM ε σ β} (failed : x s = .error fault t) :
    (x >>= f) s = .error fault t := by
  simp only [bind, EStateM.bind, failed]

variable {f : α → EStateM ε σ β}

theorem mapM_cons_of_error (failed : f a s = .error fault t) :
    (a :: as).mapM f s = .error fault t := by
  rw [List.mapM_cons, bind_of_error failed]

theorem mapM_cons_eq_ok (first : f a s = .ok b t) :
    (a :: as).mapM f s = .ok bs u ↔ ∃ others, as.mapM f t = .ok others u ∧ bs = b :: others := by
  rw [List.mapM_cons, bind_of_ok first]
  cases reached : as.mapM f t with
  | error => simp [bind_of_error reached]
  | ok others v =>
    rw [bind_of_ok reached]
    constructor
    · rintro ⟨⟩
      exact ⟨others, rfl, rfl⟩
    · rintro ⟨_, ⟨⟩, rfl⟩
      rfl

theorem mapM_cons_eq_error (first : f a s = .ok b t) :
    (a :: as).mapM f s = .error fault u ↔ as.mapM f t = .error fault u := by
  rw [List.mapM_cons, bind_of_ok first]
  cases reached : as.mapM f t with
  | error => rw [bind_of_error reached]
  | ok others v =>
    rw [bind_of_ok reached]
    exact ⟨nofun, nofun⟩

end Lasting

end Rollup
