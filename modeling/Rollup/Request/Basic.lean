import Rollup.Compile.Error
import Rollup.Expr.Parser

/-! Requests: queries as clients write them, with expressions as texts. -/

set_option autoImplicit false

namespace Rollup

structure SelectorRequest where
  expression : String
  label : Option String
  deriving DecidableEq, Repr

structure IntervalRequest where
  start : Instant
  stop : Instant
  step : Option Duration
  timeColumn : Option String
  deriving DecidableEq, Repr

inductive SortOrder where
  | ascending
  | descending
  deriving DecidableEq, Repr

structure OrderByRequest where
  name : String
  order : SortOrder
  deriving DecidableEq, Repr

structure LimitRequest where
  limit : Nat
  offset : Nat
  deriving DecidableEq, Repr

structure Request where
  selectors : List SelectorRequest
  filter : Option String
  groupBy : List String
  interval : Option IntervalRequest
  orderBy : List OrderByRequest
  limit : Option LimitRequest
  deriving DecidableEq, Repr

inductive RequestError where
  | malformed
  | expression (text : String) (source : ParseError)
  deriving DecidableEq, Repr

namespace RequestError

def kind : RequestError → ErrorKind
  | .malformed => .syntaxError
  | .expression _ source => CompileError.parseKind source

def message : RequestError → String
  | .malformed => "Invalid request"
  | .expression text source =>
    let reason := source.message
    s!"Invalid expression `{text}`: {reason}"

end RequestError

namespace Request

def parseExpr (text : String) : Except RequestError Expr :=
  match Expr.parse text with
  | .ok e => .ok e
  | .error source => .error (.expression text source)

def toSelector (request : SelectorRequest) : Except RequestError Selector := do
  return ⟨← parseExpr request.expression, request.label⟩

def toInterval (request : IntervalRequest) : Interval :=
  ⟨request.start, request.stop, request.step, request.timeColumn⟩

def toOrderBy (request : OrderByRequest) : OrderBy :=
  ⟨request.name, request.order == .descending⟩

def toQuery (request : Request) : Except RequestError Query := do
  return {
    selectors := ← request.selectors.mapM toSelector
    filter := ← request.filter.mapM parseExpr
    groupBy := request.groupBy
    interval := request.interval.map toInterval
    orderBy := request.orderBy.map toOrderBy
    limit := request.limit.map fun limit => ⟨limit.limit, limit.offset⟩ }

end Request

end Rollup
