import Rollup.Number.Word
import Rollup.Text.Character
import Rollup.Time.Instant

/-! The text of instants, as in `2024-01-02T03:04:05.678Z`.

Reading follows RFC 3339 but is lenient in places: numbers need not be padded, blanks may stand
before each of them and before every separator but the one between date and time, a blank may be
that separator, and the zone may be the word `UTC`. Every other zone is a sign, two digits of hours
and two of minutes. Writing gives no fraction, or one of three, six or nine digits.
-/

set_option autoImplicit false

namespace Rollup

namespace Rfc3339

/-- The years that instants can lie in. -/
def minYear : Int := -262143

def maxYear : Int := 262142

def readDigits? (width : Nat) (text : List Char) : Option (Nat × List Char) :=
  match (text.take width).takeWhile Number.isDigit with
  | [] => none
  | digits => some (Number.ofDigits digits, text.drop digits.length)

/-- A number of one or two digits, behind blanks. -/
def readPart? (text : List Char) : Option (Nat × List Char) :=
  readDigits? 2 (Text.trimStart text)

/-- A year behind blanks: with a sign any number of digits, else no more than four. -/
def readYear? (text : List Char) : Option (Int × List Char) :=
  match Text.trimStart text with
  | '-' :: rest => (readDigits? rest.length rest).map fun (n, rest) => (-(n : Int), rest)
  | '+' :: rest => (readDigits? rest.length rest).map fun (n, rest) => ((n : Int), rest)
  | rest => (readDigits? 4 rest).map fun (n, rest) => ((n : Int), rest)

def readMark? (mark : Char) (text : List Char) : Option (List Char) :=
  Text.dropWord [mark] (Text.trimStart text)

def readDate? (text : List Char) : Option (Date × List Char) := do
  let (year, rest) ← readYear? text
  let (month, rest) ← readPart? (← readMark? '-' rest)
  let (day, rest) ← readPart? (← readMark? '-' rest)
  let date : Date := ⟨year, month, day⟩
  if date.isValid then some (date, rest) else none

def readSeparator? : List Char → Option (List Char)
  | c :: rest => if c == 't' || c == 'T' || c == ' ' then some rest else none
  | [] => none

/-- A point and digits, of which those beyond the ninth do not count. -/
def readFraction? : List Char → Option (Nat × List Char)
  | '.' :: rest =>
    (readDigits? 9 rest).map fun (n, tail) =>
      (n * Nat.pow 10 (9 - (rest.length - tail.length)), tail.dropWhile Number.isDigit)
  | rest => some (0, rest)

/-- The seconds and nanoseconds since midnight; a sixtieth second is a leap second. -/
def readTime? (text : List Char) : Option ((Nat × Nat) × List Char) := do
  let (hour, rest) ← readPart? text
  let (minute, rest) ← readPart? (← readMark? ':' rest)
  let (second, rest) ← readPart? (← readMark? ':' rest)
  let (nanos, rest) ← readFraction? rest
  if 23 < hour || 59 < minute || 60 < second then none
  else if second = 60 then
    some ((hour * 3600 + minute * 60 + 59, nanosPerSecond + nanos), rest)
  else some ((hour * 3600 + minute * 60 + second, nanos), rest)

def readOffset? : List Char → Option (Nat × List Char)
  | a :: b :: rest =>
    match rest.dropWhile (fun c => c == ':' || Text.isBlank c) with
    | c :: d :: rest =>
      if [a, b, c, d].all Number.isDigit then
        let hours := Number.ofDigits [a, b]
        let minutes := Number.ofDigits [c, d]
        if hours < 24 && minutes < 60 then some (hours * 3600 + minutes * 60, rest) else none
      else none
    | _ => none
  | _ => none

def readZone? : List Char → Option (Int × List Char)
  | 'Z' :: rest | 'z' :: rest => some (0, rest)
  | '+' :: rest => (readOffset? rest).map fun (n, rest) => ((n : Int), rest)
  | '-' :: rest | '\u2212' :: rest => (readOffset? rest).map fun (n, rest) => (-(n : Int), rest)
  | a :: b :: c :: rest =>
    if [a, b, c].map Char.toLower = ['u', 't', 'c'] then some (0, rest) else none
  | _ => none

def isInRange (t : Instant) : Bool :=
  minYear ≤ t.date.year && t.date.year ≤ maxYear

def read? (text : List Char) : Option Instant := do
  let (date, rest) ← readDate? text
  let ((second, nanos), rest) ← readTime? (← readSeparator? rest)
  let (ahead, rest) ← readZone? (Text.trimStart rest)
  let t : Instant := ⟨date.toDays * secondsPerDay + second - ahead, nanos⟩
  if rest.all Text.isBlank && minYear ≤ date.year && date.year ≤ maxYear && isInRange t then some t
  else none

def padded (width n : Nat) : List Char :=
  let digits := Nat.toDigits 10 n
  List.replicate (width - digits.length) '0' ++ digits

/-- Four digits; a year that needs more, or that is before year zero, has a sign. -/
def yearText (year : Int) : List Char :=
  if year < 0 then '-' :: padded 4 year.natAbs
  else if year ≤ 9999 then padded 4 year.natAbs
  else '+' :: padded 4 year.natAbs

def dateText (t : Instant) : List Char :=
  yearText t.date.year ++ '-' :: padded 2 t.date.month ++ '-' :: padded 2 t.date.day

def timeText (t : Instant) : List Char :=
  padded 2 (t.secondOfDay / 3600) ++ ':' :: padded 2 (t.secondOfDay / 60 % 60) ++
    ':' :: padded 2 t.clockSecond

/-- The fraction of the second in as many groups of three digits as it needs. -/
def fractionText (nanos : Nat) : List Char :=
  if nanos = 0 then []
  else if nanos % 1000000 = 0 then '.' :: padded 3 (nanos / 1000000)
  else if nanos % 1000 = 0 then '.' :: padded 6 (nanos / 1000)
  else '.' :: padded 9 nanos

def writeWith (zone : String) (t : Instant) : String :=
  String.ofList (dateText t ++ 'T' :: timeText t ++ fractionText t.clockNanos) ++ zone

end Rfc3339

namespace Instant

def parse? (text : String) : Option Instant := Rfc3339.read? text.toList

def render (t : Instant) : String := Rfc3339.writeWith "Z" t

def describe (t : Instant) : String := Rfc3339.writeWith "+00:00" t

def stamp (t : Instant) : String :=
  String.ofList (Rfc3339.dateText t ++ ' ' :: Rfc3339.timeText t)

end Instant

end Rollup
