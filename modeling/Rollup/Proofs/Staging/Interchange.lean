import Rollup.Proofs.Compiler
import Rollup.Proofs.Expr.Equality
import Rollup.Proofs.Sql.Sign

/-! Equal keys are written alike.

Aggregates and shared expressions are merged when they are equal as keys. Equal keys are the same
expression of a statement but for the signs of zeros: keys do not tell a zero from a negative one,
while their texts do. So what is merged has the same text just if the zeros in it have the same
signs.
-/

set_option autoImplicit false

namespace Rollup

/-- The same expression but for the signs of zeros, and the same text but for these. -/
structure Sql.Expr.WrittenAlike (x y : Sql.Expr) : Prop where
  unsigned : x.unsignZeros = y.unsignZeros
  pretty (d : Sql.Dialect) : Sql.spell d x.tokens = Sql.spell d y.tokens ↔
    Sql.zeroSigns x.tokens = Sql.zeroSigns y.tokens
  compact (d : Sql.Dialect) : Sql.spellCompact d x.tokens = Sql.spellCompact d y.tokens ↔
    Sql.zeroSigns x.tokens = Sql.zeroSigns y.tokens

theorem Sql.Expr.writtenAlike {x y : Sql.Expr} (same : x.unsignZeros = y.unsignZeros) :
    x.WrittenAlike y where
  unsigned := same
  pretty d := Sql.spell_eq_iff d (Sql.Expr.alike_tokens same)
  compact d := Sql.spellCompact_eq_iff d (Sql.Expr.alike_tokens same)

section Alike
variable {ε α β γ δ : Type} {view : α → γ} {view' : β → δ}

theorem map_bind_congr {x y : Except ε α} {f g : α → Except ε β} (same : x.map view = y.map view)
    (each : ∀ a b, view a = view b → (f a).map view' = (g b).map view') :
    (x >>= f).map view' = (y >>= g).map view' := by
  cases x <;> cases y <;> simp only [Except.map, Except.ok.injEq, Except.error.injEq,
    reduceCtorEq] at same
  · exact congrArg Except.error same
  · exact each _ _ same

theorem map_eq_map {x y : Except ε α} (same : x.map view = y.map view) :
    (∃ fault, x = .error fault ∧ y = .error fault) ∨
      ∃ a b, x = .ok a ∧ y = .ok b ∧ view a = view b := by
  cases x <;> cases y <;> simp_all [Except.map]

end Alike

namespace Renderer

theorem rowExpr_same {a b : Expr} (equal : a.same b = true) :
    (rowExpr a).map (·.unsignZeros) = (rowExpr b).map (·.unsignZeros) := by
  have each : ∀ {as bs : List Expr},
      List.Forall₂ (fun a b => ∃ _ : Expr.SameTree a b,
        (rowExpr a).map (·.unsignZeros) = (rowExpr b).map (·.unsignZeros)) as bs →
      (rowExprs as).map Sql.Expr.unsignZerosEach = (rowExprs bs).map Sql.Expr.unsignZerosEach := by
    intro as bs related
    induction related with
    | nil => rfl
    | cons one _ ih =>
      obtain ⟨_, first⟩ := one
      refine map_bind_congr first fun x y head => ?_
      refine map_bind_congr ih fun xs ys tail => ?_
      exact congrArg Except.ok (congrArg₂ List.cons head tail)
  rw [Expr.same_iff] at equal
  induction equal with
  | literal equal => exact congrArg Except.ok (Literal.unsignZeros_toSql_of_same equal)
  | column | placeholder => rfl
  | binary _ _ first second =>
    refine map_bind_congr first fun l l' left => ?_
    refine map_bind_congr second fun r r' right => ?_
    exact congrArg Except.ok (congruent_unsignZeros.combine _ left right)
  | unary _ inner =>
    refine map_bind_congr inner fun x y operand => ?_
    exact congrArg Except.ok (congruent_unsignZeros.unary _ operand)
  | inList _ _ inner items =>
    refine map_bind_congr inner fun x y operand => ?_
    refine map_bind_congr (each items) fun xs ys items => ?_
    refine congrArg Except.ok ?_
    simp only [Sql.Expr.unsignZeros, operand, items]
  | call _ args =>
    refine map_bind_congr (each args) fun xs ys args => ?_
    refine congrArg Except.ok ?_
    simp only [Sql.Expr.apply, Sql.Expr.unsignZeros, args]

end Renderer

/-! ## Aggregates -/

/-- Dialects whose aggregates do not look at the signs of zeros. -/
structure Sql.Dialect.Signless (d : Dialect) : Prop where
  pick {last : Bool} {value value' time x : Expr} : d.pick last value time = some x →
    value.unsignZeros = value'.unsignZeros →
    ∃ y, d.pick last value' time = some y ∧ x.unsignZeros = y.unsignZeros
  join {value value' x : Expr} : d.join value = some x → value.unsignZeros = value'.unsignZeros →
    ∃ y, d.join value' = some y ∧ x.unsignZeros = y.unsignZeros
  countDistinct {value value' : Expr} : value.unsignZeros = value'.unsignZeros →
    (d.countDistinct value).unsignZeros = (d.countDistinct value').unsignZeros

section
open Sql.Expr (unsignZeros unsignZerosEach)
variable {value value' time : Sql.Expr} (same : value.unsignZeros = value'.unsignZeros)
include same

theorem Sql.unsignZeros_single (name : String) (distinct : Bool) :
    (Expr.function name [value] distinct).unsignZeros =
      (Expr.function name [value'] distinct).unsignZeros := by
  simp only [unsignZeros, unsignZerosEach, same]

theorem Sql.unsignZeros_pair (name : String) (other : Expr) :
    (Expr.apply name [value, other]).unsignZeros =
      (Expr.apply name [value', other]).unsignZeros := by
  simp only [Expr.apply, unsignZeros, unsignZerosEach, same]

end

theorem Sql.signless_dialect (database : Database) : database.dialect.Signless where
  pick := by
    rintro last value value' time x picked same
    cases database <;> cases picked <;> exact ⟨_, rfl, unsignZeros_pair same _ time⟩
  join := by
    rintro value value' x joined same
    cases database <;> cases joined
    case clickhouse =>
      exact ⟨_, rfl, unsignZeros_pair (unsignZeros_single same "groupArray" false) _ _⟩
    case mysql => exact ⟨_, rfl, unsignZeros_single same "group_concat" false⟩
    all_goals exact ⟨_, rfl, unsignZeros_pair same _ _⟩
  countDistinct := by
    rintro value value' same
    cases database <;> exact unsignZeros_single same _ _

theorem AggregateCall.parts_of_same {call call' : AggregateCall}
    (equal : (call == call') = true) :
    call.func = call'.func ∧ (call.arg = none ∧ call'.arg = none ∨
      ∃ arg arg', call.arg = some arg ∧ call'.arg = some arg' ∧ arg.same arg' = true) := by
  obtain ⟨func, arg⟩ := call
  obtain ⟨func', arg'⟩ := call'
  have both : (func == func') = true ∧ (arg == arg') = true := by
    simpa [BEq.beq, AggregateCall.same] using equal
  refine ⟨beq_iff_eq.mp both.1, ?_⟩
  cases arg <;> cases arg' <;> simp_all
  exact both.2

namespace Renderer
variable {r : Renderer} {call call' : AggregateCall} {x : Sql.Expr}

theorem aggregateOf_same (signless : r.dialect.Signless) (func : call.func = call'.func)
    {value value' : Sql.Expr} (same : value.unsignZeros = value'.unsignZeros)
    (ok : r.aggregateOf call value = .ok x) :
    ∃ y, r.aggregateOf call' value' = .ok y ∧ x.unsignZeros = y.unsignZeros := by
  have single : ∀ name, (Sql.Expr.apply name [value]).unsignZeros =
      (Sql.Expr.apply name [value']).unsignZeros :=
    fun name => Sql.unsignZeros_single same name false
  unfold aggregateOf at ok ⊢
  rw [← func]
  cases is : call.func <;> simp only [is, capability_eq_ok] at ok ⊢
  case sum | count | avg | min | max =>
    cases ok
    exact ⟨_, rfl, single _⟩
  case cardinality =>
    cases ok
    exact ⟨_, rfl, signless.countDistinct same⟩
  case groupConcat => exact signless.join ok same
  case rate =>
    split at ok
    · cases ok
      refine ⟨_, rfl, ?_⟩
      simp only [Sql.perSecond, Sql.Expr.unsignZeros, single]
    · cases ok
  case first | last => exact signless.pick ok same

theorem aggregate_same (signless : r.dialect.Signless) (equal : (call == call') = true)
    (ok : r.aggregate call = .ok x) :
    ∃ y, r.aggregate call' = .ok y ∧ x.unsignZeros = y.unsignZeros := by
  obtain ⟨func, ⟨absent, absent'⟩ | ⟨arg, arg', given, given', same⟩⟩ :=
    AggregateCall.parts_of_same equal
  · simp only [aggregate, absent, absent', ← func] at ok ⊢
    split at ok
    · cases ok
      exact ⟨_, rfl, rfl⟩
    · cases ok
  · simp only [aggregate, given, given', bind_eq_ok] at ok ⊢
    obtain ⟨value, written, ok⟩ := ok
    rcases map_eq_map (rowExpr_same same) with ⟨fault, failed, -⟩ | ⟨v, v', first, second, alike⟩
    · cases failed.symm.trans written
    · cases first.symm.trans written
      obtain ⟨y, ok', both⟩ := aggregateOf_same signless func alike ok
      exact ⟨y, ⟨v', second, ok'⟩, both⟩

theorem windowCall_same {partitionBy : List Sql.Expr} (equal : (call == call') = true)
    (ok : r.windowCall call partitionBy = .ok x) :
    ∃ y, r.windowCall call' partitionBy = .ok y ∧ x.unsignZeros = y.unsignZeros := by
  obtain ⟨func, ⟨absent, absent'⟩ | ⟨arg, arg', given, given', same⟩⟩ :=
    AggregateCall.parts_of_same equal
  · simp only [windowCall, absent] at ok
    cases ok
  · simp only [windowCall, given, given', bind_eq_ok, pure_eq_ok] at ok ⊢
    obtain ⟨value, written, rfl⟩ := ok
    rcases map_eq_map (rowExpr_same same) with ⟨fault, failed, -⟩ | ⟨v, v', first, second, alike⟩
    · cases failed.symm.trans written
    · cases first.symm.trans written
      refine ⟨_, ⟨v', second, rfl⟩, ?_⟩
      simp only [Sql.pickWindow, func, Sql.Expr.unsignZeros, Sql.Expr.apply,
        Sql.Expr.unsignZerosEach, alike]

/-- Expressions, aggregates and expressions over groups that are equal as keys are written alike, or
not at all. -/
theorem writtenAlike_of_equal {database : Sql.Database} (dialect : r.dialect = database.dialect) :
    (∀ a b : Expr, (a == b) = true →
      (∃ fault, rowExpr a = .error fault ∧ rowExpr b = .error fault) ∨
        ∃ x y, rowExpr a = .ok x ∧ rowExpr b = .ok y ∧ x.WrittenAlike y) ∧
    (∀ call call' : AggregateCall, (call == call') = true → ∀ x,
      (r.aggregate call = .ok x → ∃ y, r.aggregate call' = .ok y ∧ x.WrittenAlike y) ∧
        ∀ partitionBy, r.windowCall call partitionBy = .ok x →
          ∃ y, r.windowCall call' partitionBy = .ok y ∧ x.WrittenAlike y) ∧
    ∀ (scope : Scope) (e e' : GroupExpr), (e == e') = true → ∀ x, r.render scope e = .ok x →
      ∃ y, r.render scope e' = .ok y ∧ x.WrittenAlike y := by
  have alike : ∀ {x : Sql.Expr} {result : Except CompileError Sql.Expr},
      (∃ y, result = .ok y ∧ x.unsignZeros = y.unsignZeros) →
      ∃ y, result = .ok y ∧ x.WrittenAlike y :=
    fun ⟨y, ok, same⟩ => ⟨y, ok, Sql.Expr.writtenAlike same⟩
  refine ⟨fun a b equal => ?_, fun call call' equal x => ⟨fun ok => ?_, fun partitionBy ok => ?_⟩,
    fun scope e e' equal x ok => ?_⟩
  · exact (map_eq_map (rowExpr_same equal)).imp_right fun ⟨x, y, first, second, same⟩ =>
      ⟨x, y, first, second, Sql.Expr.writtenAlike same⟩
  · exact alike (aggregate_same (dialect ▸ Sql.signless_dialect database) equal ok)
  · exact alike (windowCall_same equal ok)
  · exact alike (groupExpr_same equal ok)

theorem writtenAlike_minute : ∃ y,
    (Compiler.hosts.unstaged .risingLoad none ⟨[], [], [], [], []⟩).renderer.aggregate
      ⟨.max, some (.binary .sub (.column "mem") (.literal (.duration ⟨60, .minutes⟩)))⟩ = .ok y ∧
    (Sql.Expr.apply "max" [.binary .minus (.named "mem") (.ofInt 60)]).WrittenAlike y := by
  have equal : ((⟨.max, some (.binary .sub (.column "mem") (.literal (.duration ⟨60, .seconds⟩)))⟩ :
      AggregateCall) == ⟨.max, some (.binary .sub (.column "mem")
        (.literal (.duration ⟨60, .minutes⟩)))⟩) = true := by decide
  have postgres : (Compiler.hosts.unstaged .risingLoad none ⟨[], [], [], [], []⟩).renderer.dialect =
      Sql.Database.postgres.dialect := rfl
  exact ((writtenAlike_of_equal postgres).2.1 _ _ equal _).1 rfl

end Renderer

/-! ## Zeros of both signs -/

def Expr.loadOverZero (negative : Bool) : Expr :=
  .binary .div (.column "cpu") (.literal (.float (.signedZero negative)))

/-- Sums of quotients that are infinite in opposite directions. -/
def Query.infiniteLoads : Query where
  selectors := [⟨.call "sum" [.loadOverZero false], some "up"⟩,
    ⟨.call "sum" [.loadOverZero true], some "down"⟩]

/-- The quotients are equal as keys, but they are written differently; so the second sum is merged
into the first one, and is selected with the sign of that. -/
theorem Compiler.merged_infiniteLoads :
    ((Expr.loadOverZero false == Expr.loadOverZero true) = true ∧
      ∃ x y, Renderer.rowExpr (.loadOverZero false) = .ok x ∧
        Renderer.rowExpr (.loadOverZero true) = .ok y ∧
        ∀ database : Sql.Database, Sql.spell database.dialect x.tokens ≠
          Sql.spell database.dialect y.tokens) ∧
      (clickhouseHosts.compile .infiniteLoads false).toOption.map (·.sql) = some
        "SELECT sum(\"cpu\" / 0.0) AS \"up\", sum(\"cpu\" / 0.0) AS \"down\" FROM \"metrics\"" := by
  refine ⟨⟨by decide, _, _, rfl, rfl, fun database => ?_⟩, by decide +kernel⟩
  cases database <;> decide +kernel

end Rollup
