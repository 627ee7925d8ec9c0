import Rollup.Query
import Rollup.Expr.Error

/-! Why a query is refused. -/

set_option autoImplicit false

namespace Rollup

/-- Classes of errors, for those who only want to know where to look. -/
inductive ErrorKind where
  | format
  | syntaxError
  | schemaResolution
  | unsupportedExpression
  | ambiguousOutputName
  | dialectCapability
  | invalidInterval
  deriving DecidableEq, Repr

inductive Obstacle where
  | argumentCount (function : String) (least greatest : Nat)
  | notADimension
  /-- The name of a group key is that of another column that is still to be read. -/
  | keyHidesColumn
  | rateWithoutInterval
  | missingArgument
  | aggregateWithoutField
  | expressionWithoutField
  | outputBeforeAggregation
  | filterAfterLastStage
  /-- A key, an aggregate, a shared expression or an output that does not exist. -/
  | danglingReference
  deriving DecidableEq, Repr

inductive CompileError where
  | parse (source : ParseError)
  | unknownColumn (name : String)
  | unknownFunction (name : String)
  | derivedCycle (names : List String)
  | unknownOutput (name : String)
  | nestedAggregate (outer inner : String)
  | unresolvedPlaceholder (name : String)
  | ungroupedColumn (expr column : String)
  | mixedFilterLevels (condition : String)
  | unsupported (expr : String) (obstacle : Obstacle)
  | ambiguousOutputName (expr : String)
  | duplicateOutputName (name : String)
  | shadowedColumn (name dialect : String)
  | dialectCapability (dialect construct : String)
  | invalidInterval (fault : IntervalFault)
  | noSelectors
  deriving DecidableEq, Repr

def Obstacle.message : Obstacle → String
  | .argumentCount function least greatest => s!"`{function}` takes {least} to {greatest} arguments"
  | .notADimension => "only dimensions can be grouped by"
  | .keyHidesColumn => "group key alias shadows a column read after the window stage"
  | .rateWithoutInterval => "rate needs an interval"
  | .missingArgument => "missing argument"
  | .aggregateWithoutField => "aggregate has no field"
  | .expressionWithoutField => "expression has no field"
  | .outputBeforeAggregation => "output is not available before aggregation"
  | .filterAfterLastStage => "filter needs a post-aggregation stage"
  | .danglingReference => "reference has no target"

namespace CompileError

def parseKind (e : ParseError) : ErrorKind :=
  if e.isLiteral then .format else .syntaxError

def kind : CompileError → ErrorKind
  | .parse source => parseKind source
  | .unknownColumn _ | .unknownFunction _ | .derivedCycle _ | .unknownOutput _ =>
    .schemaResolution
  | .nestedAggregate _ _ | .unresolvedPlaceholder _ | .ungroupedColumn _ _
  | .mixedFilterLevels _ | .unsupported _ _ | .noSelectors => .unsupportedExpression
  | .ambiguousOutputName _ | .duplicateOutputName _ | .shadowedColumn _ _ => .ambiguousOutputName
  | .dialectCapability _ _ => .dialectCapability
  | .invalidInterval _ => .invalidInterval

def message : CompileError → String
  | .parse source =>
    let reason := source.message
    s!"Invalid expression: {reason}"
  | .unknownColumn name => s!"Unknown column `{name}`"
  | .unknownFunction name => s!"Unknown function `{name}`"
  | .derivedCycle names => "Derived columns form a cycle: " ++ " -> ".intercalate names
  | .unknownOutput name => s!"`{name}` is not an output column"
  | .nestedAggregate outer inner => s!"Aggregate `{inner}` is nested inside `{outer}`"
  | .unresolvedPlaceholder name => "Macro `\x7b" ++ name ++ "\x7d` cannot be resolved"
  | .ungroupedColumn expr column =>
    s!"Column `{column}` is neither aggregated nor grouped in `{expr}`"
  | .mixedFilterLevels condition =>
    s!"Filter `{condition}` combines raw columns and aggregated values in one OR/NOT branch"
  | .unsupported expr obstacle =>
    let reason := obstacle.message
    s!"Unsupported expression `{expr}`: {reason}"
  | .ambiguousOutputName expr => s!"Selector `{expr}` needs an alias"
  | .duplicateOutputName name => s!"Output name `{name}` is used more than once"
  | .shadowedColumn name dialect =>
    s!"Output name `{name}` hides column `{name}` read in the same SELECT on {dialect}"
  | .dialectCapability dialect construct => s!"Dialect `{dialect}` cannot render {construct}"
  | .invalidInterval fault =>
    let reason := fault.message
    s!"Invalid interval: {reason}"
  | .noSelectors => "Query has no selectors"

end CompileError

end Rollup
