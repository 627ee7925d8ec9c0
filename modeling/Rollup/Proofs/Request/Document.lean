import Rollup.Proofs.Computation
import Rollup.Proofs.Json.Reading
import Rollup.Proofs.Time.Rfc3339
import Rollup.Proofs.Value.Duration
import Rollup.Request.Document

/-! Requests that are encoded are decoded again.

An encoded record has every field at most once and leaves out those that decoding fills in. What
decoding accepts has a text that is accepted again: instants and durations can be written, and
numbers fit a word.
-/

set_option autoImplicit false

namespace Rollup

structure LimitRequest.Fits (page : LimitRequest) : Prop where
  limit : page.limit ≤ Number.maxUnsignedWord
  offset : page.offset ≤ Number.maxUnsignedWord

structure IntervalRequest.IsReadable (interval : IntervalRequest) : Prop where
  start : interval.start.IsReadable
  stop : interval.stop.IsReadable
  step : ∀ step ∈ interval.step, step.IsCounted

namespace Request

open Json

/-! ## Records -/

def recordOf (fields : List (String × Option Json)) : Json :=
  .object (fields.flatMap fun field => optionalMember field.1 field.2)

section
variable {fields : List (String × Option Json)} {name : String} {value : Option Json}

theorem filter_optionalMember : ((optionalMember name value).filter fun entry => entry.1 == name) =
    optionalMember name value := by
  cases value <;> simp [optionalMember]

theorem filter_optionalMember_of_ne {other : String} (differs : other ≠ name) :
    ((optionalMember other value).filter fun entry => entry.1 == name) = [] := by
  cases value <;> simp [optionalMember, differs]

/-- The entries of a record under the name of a field are those of the field. -/
theorem filter_fields (distinct : (fields.map (·.1)).Nodup) (listed : (name, value) ∈ fields) :
    ((fields.flatMap fun field => optionalMember field.1 field.2).filter fun entry =>
      entry.1 == name) = optionalMember name value := by
  have absent : ∀ {fields : List (String × Option Json)}, name ∉ fields.map (·.1) →
      ((fields.flatMap fun field => optionalMember field.1 field.2).filter fun entry =>
        entry.1 == name) = [] := by
    intro fields absent
    induction fields with
    | nil => rfl
    | cons field rest ih =>
      simp only [List.map_cons, List.mem_cons, not_or] at absent
      rw [List.flatMap_cons, List.filter_append, ih absent.2,
        filter_optionalMember_of_ne (Ne.symm absent.1), List.append_nil]
  induction fields with
  | nil => cases listed
  | cons field rest ih =>
    obtain ⟨new, distinct⟩ := List.nodup_cons.mp distinct
    rw [List.flatMap_cons, List.filter_append]
    rcases List.mem_cons.mp listed with rfl | listed
    · rw [filter_optionalMember, absent new, List.append_nil]
    · have differs : field.1 ≠ name := by
        rintro rfl
        exact new (List.mem_map_of_mem (f := (·.1)) listed)
      rw [filter_optionalMember_of_ne differs, List.nil_append, ih distinct listed]

def Fills (rule : FieldRule) (field : String × Option Json) : Prop :=
  rule.name = field.1 ∧ (rule.required = true → field.2.isSome = true)

theorem record?_recordOf {rules : List FieldRule} (distinct : (fields.map (·.1)).Nodup)
    (fill : List.Forall₂ Fills rules fields) :
    (recordOf fields).record? rules = some (fields.map (·.2)) := by
  let members := fields.flatMap fun field => optionalMember field.1 field.2
  have one : ∀ {rule : FieldRule} {field : String × Option Json}, Fills rule field →
      field ∈ fields → member? members rule = some field.2 := by
    rintro rule ⟨name, value⟩ ⟨same, given⟩ listed
    rw [member?, same, filter_fields distinct listed]
    cases value with
    | none => exact if_neg fun required => absurd (given required) (by simp)
    | some value => rfl
  have each : ∀ {rules : List FieldRule} {part : List (String × Option Json)},
      List.Forall₂ Fills rules part → (∀ field ∈ part, field ∈ fields) →
        rules.mapM (member? members) = some (part.map (·.2)) := by
    intro rules part fill within
    induction fill with
    | nil => rfl
    | cons first _ ih =>
      rw [List.mapM_cons, one first (within _ List.mem_cons_self),
        ih fun field listed => within field (List.mem_cons_of_mem _ listed)]
      rfl
  exact each fill fun _ => id

theorem isPlain_recordOf (plain : ∀ field ∈ fields, ∀ value ∈ field.2, value.IsPlain) :
    (recordOf fields).IsPlain := by
  refine .object fun member listed => ?_
  obtain ⟨⟨name, value⟩, among, listed⟩ := List.mem_flatMap.mp listed
  cases value with
  | none => cases listed
  | some value =>
    obtain rfl := List.mem_singleton.mp listed
    exact plain _ among value rfl

end

/-! ## Fields -/

def nonempty? : List Json → Option Json
  | [] => none
  | items => some (.array items)

theorem listMember_eq (name : String) (items : List Json) :
    listMember name items = optionalMember name (nonempty? items) := by
  cases items <;> rfl

section
variable {α : Type} {read : Json → Option α} {write : α → Json}

theorem absentOr?_map (value : Option α) (back : ∀ a ∈ value, read (write a) = some a)
    (given : ∀ a ∈ value, write a ≠ .null) : absentOr? read (value.map write) = some value := by
  cases value with
  | none => rfl
  | some a =>
    rw [Option.map_some, absentOr?, nullable?.eq_def]
    split
    · rename_i null
      exact absurd null (given a rfl)
    · rw [back a rfl, Option.map_some]

theorem absentOr?_string (text : Option String) :
    absentOr? text? (text.map .string) = some text :=
  absentOr?_map text (fun _ _ => rfl) fun _ _ => by simp

theorem list?_map (values : List α) (back : ∀ a ∈ values, read (write a) = some a) :
    list? read (.array (values.map write)) = some values := by
  rw [list?]
  induction values with
  | nil => rfl
  | cons a rest ih =>
    rw [List.map_cons, List.mapM_cons, back a List.mem_cons_self,
      ih fun b listed => back b (List.mem_cons_of_mem _ listed)]
    rfl

theorem givenOr?_nonempty? (values : List α) (back : ∀ a ∈ values, read (write a) = some a) :
    givenOr? [] (list? read) (nonempty? (values.map write)) = some values := by
  cases values with
  | nil => rfl
  | cons a rest => exact list?_map _ back

end

theorem count?_ofNat {n : Nat} (fits : n ≤ Number.maxUnsignedWord) :
    (Json.ofNat n).count? = some n := by
  show (Number.readNat? (Nat.repr n).toList).filter _ = _
  rw [Number.toList_repr, Number.readNat?_toDigits]
  exact Option.filter_some_pos (by simpa using fits)

/-! ## Parts of a request -/

theorem encodeSelector_eq (selector : SelectorRequest) : encodeSelector selector =
    recordOf [("expression", some (.string selector.expression)),
      ("alias", selector.label.map .string)] := by
  simp [encodeSelector, recordOf, optionalMember]

theorem selector?_encode (selector : SelectorRequest) :
    selector? (encodeSelector selector) = some selector := by
  rw [encodeSelector_eq, selector?, record?_recordOf (by simp) (by simp [Fills])]
  simp [absentOr?_string, text?]

theorem encodeLimit_eq (limit : LimitRequest) : encodeLimit limit =
    recordOf [("limit", some (.ofNat limit.limit)), ("offset", some (.ofNat limit.offset))] := by
  simp [encodeLimit, recordOf, optionalMember]

theorem limit?_encode {limit : LimitRequest} (fits : limit.Fits) :
    limit? (encodeLimit limit) = some limit := by
  rw [encodeLimit_eq, limit?, record?_recordOf (by simp) (by simp [Fills])]
  simp [givenOr?, count?_ofNat fits.limit, count?_ofNat fits.offset]

theorem encodeOrderBy_eq (orderBy : OrderByRequest) : encodeOrderBy orderBy =
    recordOf [("name", some (.string orderBy.name)),
      ("order", some (.string (SortOrder.word orderBy.order)))] := by
  simp [encodeOrderBy, recordOf, optionalMember]

theorem orderBy?_encode (orderBy : OrderByRequest) :
    orderBy? (encodeOrderBy orderBy) = some orderBy := by
  have order : sortOrder? (.string (SortOrder.word orderBy.order)) = some orderBy.order := by
    cases orderBy.order <;> rfl
  rw [encodeOrderBy_eq, orderBy?, record?_recordOf (by simp) (by simp [Fills])]
  simp [givenOr?, order, text?]

theorem instant?_render {t : Instant} (readable : t.IsReadable) :
    instant? (.string t.render) = some t := by
  rw [instant?, text?, Option.bind_some, Instant.parse?_render readable]

theorem duration?_render {d : Duration} (counted : d.IsCounted) :
    duration? (.string d.render) = some d := by
  rw [duration?, text?, Option.bind_some, Duration.parse_render counted]
  rfl

theorem encodeInterval_eq (interval : IntervalRequest) : encodeInterval interval =
    recordOf [("start", some (.string interval.start.render)),
      ("end", some (.string interval.stop.render)),
      ("step", interval.step.map fun step => .string step.render),
      ("timeColumn", interval.timeColumn.map .string)] := by
  simp [encodeInterval, recordOf, optionalMember]

theorem interval?_encode {interval : IntervalRequest} (readable : interval.IsReadable) :
    interval? (encodeInterval interval) = some interval := by
  rw [encodeInterval_eq, interval?, record?_recordOf (by simp) (by simp [Fills])]
  have step : absentOr? duration? (interval.step.map fun step => .string step.render) =
      some interval.step :=
    absentOr?_map _ (fun step given => duration?_render (readable.step step given))
      fun _ _ => by simp
  simp [instant?_render readable.start, instant?_render readable.stop, step, absentOr?_string]

/-! ## Requests -/

/-- What a request is made of can be written so that it is read again. -/
structure IsReadable (request : Request) : Prop where
  interval : ∀ interval ∈ request.interval, interval.IsReadable
  limit : ∀ limit ∈ request.limit, limit.Fits

theorem encode_eq (request : Request) : request.encode =
    recordOf [("selectors", some (.array (request.selectors.map encodeSelector))),
      ("filter", request.filter.map .string),
      ("groupBy", nonempty? (request.groupBy.map .string)),
      ("interval", request.interval.map encodeInterval),
      ("orderBy", nonempty? (request.orderBy.map encodeOrderBy)),
      ("limit", request.limit.map encodeLimit)] := by
  simp [encode, recordOf, optionalMember, listMember_eq]

theorem decode?_encode {request : Request} (readable : request.IsReadable) :
    decode? request.encode = some request := by
  have selectors := list?_map request.selectors fun selector _ =>
    selector?_encode selector
  have groupBy : givenOr? [] (list? text?) (nonempty? (request.groupBy.map .string)) =
      some request.groupBy := givenOr?_nonempty? _ fun _ _ => rfl
  have interval := absentOr?_map request.interval
    (fun interval given => interval?_encode (readable.interval interval given))
    fun _ _ => by simp [encodeInterval]
  have orderBy := givenOr?_nonempty? request.orderBy fun orderBy _ =>
    orderBy?_encode orderBy
  have limit := absentOr?_map request.limit
    (fun limit given => limit?_encode (readable.limit limit given)) fun _ _ => by simp [encodeLimit]
  rw [encode_eq, decode?, record?_recordOf (by simp) (by simp [Fills, rules])]
  simp [selectors, absentOr?_string, groupBy, interval, orderBy, limit]

/-! ## What decoding accepts -/

theorem read_of_absentOr? {α : Type} {read : Json → Option α} {value : Option Json}
    {result : Option α} (ok : absentOr? read value = some result) {a : α} (given : a ∈ result) :
    ∃ value, read value = some a := by
  rw [absentOr?.eq_def] at ok
  split at ok
  · cases ok
    cases given
  · rw [nullable?.eq_def] at ok
    split at ok
    · cases ok
      cases given
    · obtain ⟨b, found, rfl⟩ := Option.map_eq_some_iff.mp ok
      cases given
      exact ⟨_, found⟩

theorem isReadable_of_instant? {value : Json} {t : Instant} (ok : instant? value = some t) :
    t.IsReadable := by
  obtain ⟨text, -, read⟩ := Option.bind_eq_some_iff.mp ok
  exact Instant.isReadable_of_parse? read

theorem isCounted_of_duration? {value : Json} {d : Duration} (ok : duration? value = some d) :
    d.IsCounted := by
  obtain ⟨text, -, read⟩ := Option.bind_eq_some_iff.mp ok
  exact Duration.isCounted_of_parse (toOption_eq_some.mp read)

theorem isReadable_of_interval? {value : Json} {interval : IntervalRequest}
    (ok : interval? value = some interval) : interval.IsReadable := by
  simp only [interval?, bind, Option.bind_eq_some_iff] at ok
  obtain ⟨fields, -, ok⟩ := ok
  split at ok
  · simp only [Option.bind_eq_some_iff] at ok
    obtain ⟨start, began, stop, ended, step, stepped, timeColumn, -, same⟩ := ok
    cases same
    refine ⟨isReadable_of_instant? began, isReadable_of_instant? ended, fun d given => ?_⟩
    obtain ⟨value, read⟩ := read_of_absentOr? stepped given
    exact isCounted_of_duration? read
  · cases ok

theorem le_of_count? {value : Json} {n : Nat} (ok : value.count? = some n) :
    n ≤ Number.maxUnsignedWord := by
  unfold count? at ok
  split at ok
  · simpa using (Option.filter_eq_some_iff.mp ok).2
  · cases ok

theorem fits_of_limit? {value : Json} {limit : LimitRequest} (ok : limit? value = some limit) :
    limit.Fits := by
  simp only [limit?, bind, Option.bind_eq_some_iff] at ok
  obtain ⟨fields, -, ok⟩ := ok
  split at ok
  · simp only [Option.bind_eq_some_iff] at ok
    obtain ⟨count, counted, offset, skipped, same⟩ := ok
    cases same
    refine ⟨le_of_count? counted, ?_⟩
    rw [givenOr?.eq_def] at skipped
    split at skipped
    · cases skipped
      exact Nat.zero_le _
    · exact le_of_count? skipped
  · cases ok

theorem isReadable_of_decode? {value : Json} {request : Request}
    (ok : decode? value = some request) : request.IsReadable := by
  simp only [decode?, bind, Option.bind_eq_some_iff] at ok
  obtain ⟨fields, -, ok⟩ := ok
  split at ok
  · simp only [Option.bind_eq_some_iff] at ok
    obtain ⟨selectors, -, filter, -, groupBy, -, interval, intervals, orderBy, -, limit, limits,
      same⟩ := ok
    cases same
    constructor
    · intro interval given
      obtain ⟨value, read⟩ := read_of_absentOr? intervals given
      exact isReadable_of_interval? read
    · intro limit given
      obtain ⟨value, read⟩ := read_of_absentOr? limits given
      exact fits_of_limit? read
  · cases ok

/-! ## Texts -/

section
variable {α : Type} {write : α → Json}

theorem isPlain_array (plain : ∀ a, (write a).IsPlain) (values : List α) :
    (Json.array (values.map write)).IsPlain := by
  refine .array fun item listed => ?_
  obtain ⟨a, -, rfl⟩ := List.mem_map.mp listed
  exact plain a

theorem isPlain_of_nonempty? (plain : ∀ a, (write a).IsPlain) (values : List α) :
    ∀ value ∈ nonempty? (values.map write), value.IsPlain := by
  intro value given
  cases values with
  | nil => cases given
  | cons a rest =>
    cases given
    exact isPlain_array plain (a :: rest)

theorem isPlain_of_map (plain : ∀ a, (write a).IsPlain) (value : Option α) :
    ∀ json ∈ value.map write, json.IsPlain := by
  intro json given
  obtain ⟨a, -, rfl⟩ := Option.map_eq_some_iff.mp given
  exact plain a

end

theorem isPlain_of_some {value : Json} (plain : value.IsPlain) :
    ∀ json ∈ some value, json.IsPlain := by
  rintro _ ⟨⟩
  exact plain

theorem isPlain_encodeSelector (selector : SelectorRequest) :
    (encodeSelector selector).IsPlain := by
  rw [encodeSelector_eq]
  refine isPlain_recordOf ?_
  simp only [List.forall_mem_cons]
  exact ⟨isPlain_of_some (.string _), isPlain_of_map .string _, nofun⟩

theorem isPlain_encodeInterval (interval : IntervalRequest) :
    (encodeInterval interval).IsPlain := by
  rw [encodeInterval_eq]
  refine isPlain_recordOf ?_
  simp only [List.forall_mem_cons]
  exact ⟨isPlain_of_some (.string _), isPlain_of_some (.string _),
    isPlain_of_map (fun _ => .string _) _, isPlain_of_map .string _, nofun⟩

theorem isPlain_encodeOrderBy (orderBy : OrderByRequest) : (encodeOrderBy orderBy).IsPlain := by
  rw [encodeOrderBy_eq]
  refine isPlain_recordOf ?_
  simp only [List.forall_mem_cons]
  exact ⟨isPlain_of_some (.string _), isPlain_of_some (.string _), nofun⟩

theorem isPlain_encodeLimit (limit : LimitRequest) : (encodeLimit limit).IsPlain := by
  rw [encodeLimit_eq]
  refine isPlain_recordOf ?_
  simp only [List.forall_mem_cons]
  exact ⟨isPlain_of_some (.nat _), isPlain_of_some (.nat _), nofun⟩

theorem isPlain_encode (request : Request) : request.encode.IsPlain := by
  rw [encode_eq]
  refine isPlain_recordOf ?_
  simp only [List.forall_mem_cons]
  exact ⟨isPlain_of_some (isPlain_array isPlain_encodeSelector _), isPlain_of_map .string _,
    isPlain_of_nonempty? .string _, isPlain_of_map isPlain_encodeInterval _,
    isPlain_of_nonempty? isPlain_encodeOrderBy _, isPlain_of_map isPlain_encodeLimit _, nofun⟩

/-- A request that is read is read again from its text, with nothing lost: neither the units of
durations nor the nanoseconds of instants nor the order of lists. So both ask for the same query. -/
theorem parse_encode {text : String} {request : Request} (read : parse text = .ok request) :
    decode? request.encode = some request ∧ parse request.encode.compact = .ok request := by
  have decoded : (Json.parse? text).bind decode? = some request := by
    rw [parse] at read
    split at read
    · rename_i found
      cases read
      exact found
    · cases read
  obtain ⟨value, -, decoded⟩ := Option.bind_eq_some_iff.mp decoded
  have back := decode?_encode (isReadable_of_decode? decoded)
  refine ⟨back, ?_⟩
  rw [parse, Json.parse?_compact (isPlain_encode request), Option.bind_some, back]

/-- A request that is written in unusual ways: its records are arrays, and its interval begins
within a leap second, by another clock. -/
def loadText : String :=
  "\x7b\"selectors\":[[\"load\"]],\"interval\":[\"2016-12-31 18:59:60.5-05:00\"," ++
    "\"2017-01-02 0:0:0z\",\"90m\"],\"limit\":[10]\x7d"

def loadRequest : Request where
  selectors := [⟨"load", none⟩]
  filter := none
  groupBy := []
  interval := some ⟨⟨1483228799, 1500000000⟩, ⟨1483315200, 0⟩, some ⟨5400, .minutes⟩, none⟩
  orderBy := []
  limit := some ⟨10, 0⟩

theorem parse_encode_load : parse loadText = .ok loadRequest ∧
    decode? loadRequest.encode = some loadRequest ∧
      parse loadRequest.encode.compact = .ok loadRequest := by
  have read : parse loadText = .ok loadRequest := by decide +kernel
  exact ⟨read, parse_encode read⟩

end Request

end Rollup
