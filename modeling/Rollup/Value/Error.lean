/-! Why the text of a value is refused. -/

set_option autoImplicit false

namespace Rollup

/-- Whether a text is malformed as a whole or holds a number that is not allowed. -/
inductive ValueErrorKind where
  | format
  | invalidValue
  deriving DecidableEq, Repr

inductive ValueFault where
  | emptyDuration
  | shortDuration
  | unknownDurationUnit (unit : Char)
  | durationNotInteger
  | durationOutOfRange
  | emptySize
  | negativeSize
  | sizeWithoutDigits
  | sizeOutOfRange
  | unknownSizeUnit (unit : String)
  | precisionTooLarge
  | noPercentSign
  | notANumber
  | notFinite
  deriving DecidableEq, Repr

structure ValueError where
  text : String
  fault : ValueFault
  deriving DecidableEq, Repr

def ValueFault.kind : ValueFault → ValueErrorKind
  | .precisionTooLarge | .notANumber | .notFinite => .invalidValue
  | _ => .format

def ValueFault.reason : ValueFault → String
  | .emptyDuration => "empty duration"
  | .shortDuration => "duration needs a number and a unit"
  | .unknownDurationUnit unit => s!"unknown duration unit `{unit}`"
  | .durationNotInteger => "duration body must be an integer"
  | .durationOutOfRange => "duration out of range"
  | .emptySize => "empty size"
  | .negativeSize => "size must not be negative"
  | .sizeWithoutDigits => "size must start with an integer"
  | .sizeOutOfRange => "size out of range"
  | .unknownSizeUnit unit => s!"unknown size unit `{unit}`"
  | .precisionTooLarge => "precision must be between 0 and 3"
  | .noPercentSign => "percentage must end with `%`"
  | .notANumber => "not a number"
  | .notFinite => "percentage must be finite"

def ValueError.message (e : ValueError) : String :=
  let text := e.text
  let reason := e.fault.reason
  match e.fault.kind with
  | .format => s!"invalid format `{text}`: {reason}"
  | .invalidValue => s!"invalid value `{text}`: {reason}"

end Rollup
