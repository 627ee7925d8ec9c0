import Rollup.Json.Parser
import Rollup.Json.Record
import Rollup.Request.Basic

/-! Requests written as JSON.

Fields that are missing or null are absent; lists, orders and offsets must not be null. Encoding
leaves out absent fields and empty lists, and decoding what has been encoded gives the same request.
-/

set_option autoImplicit false

namespace Rollup.Request

open Json

def duration? (value : Json) : Option Duration :=
  value.text?.bind fun text => (Duration.parse text).toOption

def instant? (value : Json) : Option Instant := value.text?.bind Instant.parse?

def sortOrder? (value : Json) : Option SortOrder :=
  match value.caseName? with
  | some "asc" => some .ascending
  | some "desc" => some .descending
  | _ => none

def absentOr? {α : Type} (read : Json → Option α) : Option Json → Option (Option α)
  | none => some none
  | some value => value.nullable? read

def givenOr? {α : Type} (default : α) (read : Json → Option α) : Option Json → Option α
  | none => some default
  | some value => read value

def selector? (value : Json) : Option SelectorRequest := do
  match ← value.record? [⟨"expression", true⟩, ⟨"alias", false⟩] with
  | [some expression, label] => return ⟨← expression.text?, ← absentOr? text? label⟩
  | _ => none

def interval? (value : Json) : Option IntervalRequest := do
  match ← value.record?
      [⟨"start", true⟩, ⟨"end", true⟩, ⟨"step", false⟩, ⟨"timeColumn", false⟩] with
  | [some start, some stop, step, timeColumn] =>
    return ⟨← instant? start, ← instant? stop, ← absentOr? duration? step,
      ← absentOr? text? timeColumn⟩
  | _ => none

def orderBy? (value : Json) : Option OrderByRequest := do
  match ← value.record? [⟨"name", true⟩, ⟨"order", false⟩] with
  | [some name, order] => return ⟨← name.text?, ← givenOr? .ascending sortOrder? order⟩
  | _ => none

def limit? (value : Json) : Option LimitRequest := do
  match ← value.record? [⟨"limit", true⟩, ⟨"offset", false⟩] with
  | [some limit, offset] => return ⟨← limit.count?, ← givenOr? 0 count? offset⟩
  | _ => none

def rules : List FieldRule :=
  [⟨"selectors", true⟩, ⟨"filter", false⟩, ⟨"groupBy", false⟩, ⟨"interval", false⟩,
    ⟨"orderBy", false⟩, ⟨"limit", false⟩]

def decode? (value : Json) : Option Request := do
  match ← value.record? rules with
  | [some selectors, filter, groupBy, interval, orderBy, limit] =>
    return {
      selectors := ← selectors.list? selector?
      filter := ← absentOr? text? filter
      groupBy := ← givenOr? [] (list? text?) groupBy
      interval := ← absentOr? interval? interval
      orderBy := ← givenOr? [] (list? orderBy?) orderBy
      limit := ← absentOr? limit? limit }
  | _ => none

def parse (text : String) : Except RequestError Request :=
  match (Json.parse? text).bind decode? with
  | some request => .ok request
  | none => .error .malformed

def optionalMember (name : String) : Option Json → List (String × Json)
  | none => []
  | some value => [(name, value)]

def listMember (name : String) : List Json → List (String × Json)
  | [] => []
  | items => [(name, .array items)]

def encodeSelector (selector : SelectorRequest) : Json :=
  .object (("expression", .string selector.expression) ::
    optionalMember "alias" (selector.label.map .string))

def encodeInterval (interval : IntervalRequest) : Json :=
  .object ([("start", .string interval.start.render), ("end", .string interval.stop.render)] ++
    optionalMember "step" (interval.step.map fun step => .string step.render) ++
    optionalMember "timeColumn" (interval.timeColumn.map .string))

def SortOrder.word : SortOrder → String
  | .ascending => "asc"
  | .descending => "desc"

def encodeOrderBy (orderBy : OrderByRequest) : Json :=
  .object [("name", .string orderBy.name), ("order", .string (SortOrder.word orderBy.order))]

def encodeLimit (limit : LimitRequest) : Json :=
  .object [("limit", .ofNat limit.limit), ("offset", .ofNat limit.offset)]

def encode (request : Request) : Json :=
  .object ([("selectors", .array (request.selectors.map encodeSelector))] ++
    optionalMember "filter" (request.filter.map .string) ++
    listMember "groupBy" (request.groupBy.map .string) ++
    optionalMember "interval" (request.interval.map encodeInterval) ++
    listMember "orderBy" (request.orderBy.map encodeOrderBy) ++
    optionalMember "limit" (request.limit.map encodeLimit))

end Rollup.Request
