import Rollup.Toml.Quoted
import Rollup.Toml.Scalar
import Rollup.Toml.Table

/-! Reading TOML documents.

A document is a sequence of lines, each of them blank, a comment, a key with its value, or a header.
Arrays and inline tables may span lines, hold comments and end in a comma. They are nested at most
eighty deep, and a key has at most eighty parts.
-/

set_option autoImplicit false

namespace Rollup.Toml

def skipLineBlanks (text : List Char) : List Char := text.dropWhile isLineBlank

def isBareKeyChar (c : Char) : Bool := c.isAlphanum || c == '_' || c == '-'

def readKeyPart? : List Char → Read String
  | '"' :: rest => readQuoted? '"' rest
  | '\'' :: rest => readQuoted? '\'' rest
  | text =>
    match text.takeWhile isBareKeyChar with
    | [] => none
    | name => some (String.ofList name, text.dropWhile isBareKeyChar)

/-- How many levels of arrays and inline tables are nested, and how many parts a key has, at
most. -/
def maxDepth : Nat := 80

def readParts? : Nat → List Char → Read (List String × String)
  | 0, _ => none
  | count + 1, text =>
    match readKeyPart? (skipLineBlanks text) with
    | none => none
    | some (part, rest) =>
      match skipLineBlanks rest with
      | '.' :: rest =>
        (readParts? count rest).map fun ((path, key), rest) => ((part :: path, key), rest)
      | rest => some (([], part), rest)

def readKey? (text : List Char) : Read (List String × String) := readParts? maxDepth text

def skipComment? (text : List Char) : Option (List Char) :=
  match text with
  | '#' :: rest =>
    let tail := rest.dropWhile (fun c => !isControl c)
    match tail with
    | [] => some []
    | tail => if (dropNewline? tail).isSome then some tail else none
  | text => some text

def skipLines? : Nat → List Char → Option (List Char)
  | 0, _ => none
  | fuel + 1, text =>
    match skipComment? (skipLineBlanks text) with
    | none => none
    | some rest =>
      match dropNewline? rest with
      | some rest => skipLines? fuel rest
      | none => some rest

def skipGap? (text : List Char) : Option (List Char) := skipLines? (text.length + 1) text

def endsScalar (c : Char) : Bool := " \t\r\n#,=[]\x7b\x7d".toList.contains c

def isScalarChar (c : Char) : Bool := !endsScalar c

def splitScalar (text : List Char) : List Char × List Char :=
  let word := text.takeWhile isScalarChar
  match text.dropWhile isScalarChar with
  | ' ' :: c :: rest =>
    -- A date takes a time of day behind a blank with it.
    if dropDate? word == some [] && Number.isDigit c then
      let time := (c :: rest).takeWhile isScalarChar
      (word ++ ' ' :: time, (c :: rest).dropWhile isScalarChar)
    else (word, ' ' :: c :: rest)
  | rest => (word, rest)

def readInlineKey? (text : List Char) : Read (List String × String) :=
  match readKey? text with
  | none => none
  | some (key, rest) =>
    match skipGap? rest with
    | some ('=' :: rest) => (skipGap? rest).map fun rest => (key, rest)
    | _ => none

mutual

-- The first argument bounds the number of values on the way, the second the levels of brackets.
def readValue? : Nat → Nat → List Char → Read Value
  | 0, _, _ => none
  | fuel + 1, depth, text =>
    match text, depth with
    | '"' :: rest, _ => (readString? '"' rest).map fun (text, rest) => (.string text, rest)
    | '\'' :: rest, _ => (readString? '\'' rest).map fun (text, rest) => (.string text, rest)
    | '[' :: rest, depth + 1 =>
      (readItems? fuel depth rest).map fun (items, rest) => (.array items, rest)
    | '\x7b' :: rest, depth + 1 =>
      match readPairs? fuel depth rest with
      | none => none
      | some (pairs, rest) =>
        (inlineMembers? pairs).map fun members => (.table .inline members, rest)
    | text, _ =>
      let (word, rest) := splitScalar text
      (scalar? word).map fun value => (value, rest)
termination_by structural fuel => fuel

def readItems? : Nat → Nat → List Char → Read (List Value)
  | 0, _, _ => none
  | fuel + 1, depth, text =>
    match skipGap? text with
    | none => none
    | some (']' :: rest) => some ([], rest)
    | some text =>
      match readValue? fuel depth text with
      | none => none
      | some (item, rest) =>
        match skipGap? rest with
        | some (']' :: rest) => some ([item], rest)
        | some (',' :: rest) =>
          (readItems? fuel depth rest).map fun (items, rest) => (item :: items, rest)
        | _ => none
termination_by structural fuel => fuel

def readPairs? : Nat → Nat → List Char → Read (List (List String × String × Value))
  | 0, _, _ => none
  | fuel + 1, depth, text =>
    match skipGap? text with
    | none => none
    | some ('\x7d' :: rest) => some ([], rest)
    | some text =>
      match readPair? fuel depth text with
      | none => none
      | some (pair, rest) =>
        match skipGap? rest with
        | some ('\x7d' :: rest) => some ([pair], rest)
        | some (',' :: rest) =>
          (readPairs? fuel depth rest).map fun (pairs, rest) => (pair :: pairs, rest)
        | _ => none
termination_by structural fuel => fuel

def readPair? : Nat → Nat → List Char → Read (List String × String × Value)
  | 0, _, _ => none
  | fuel + 1, depth, text =>
    match readInlineKey? text with
    | none => none
    | some ((path, key), rest) =>
      (readValue? fuel depth rest).map fun (value, rest) => ((path, key, value), rest)
termination_by structural fuel => fuel

end

def readHeader? (closing : List Char) (text : List Char) : Read (List String × String) :=
  match readKey? text with
  | none => none
  | some (key, rest) => (Text.dropWord closing rest).map fun rest => (key, rest)

def readAssignment? (text : List Char) : Read Statement :=
  match readKey? text with
  | some ((path, key), '=' :: rest) =>
    (readValue? (2 * rest.length + 2) maxDepth (skipLineBlanks rest)).map fun (value, rest) =>
      (.assign path key value, rest)
  | _ => none

def readStatement? : List Char → Read Statement
  | '[' :: '[' :: rest =>
    (readHeader? [']', ']'] rest).map fun ((path, key), rest) => (.item path key, rest)
  | '[' :: rest =>
    (readHeader? [']'] rest).map fun ((path, key), rest) => (.header path key, rest)
  | text => readAssignment? text

def endLine? (text : List Char) : Option (List Char) :=
  match skipComment? (skipLineBlanks text) with
  | some [] => some []
  | some rest => dropNewline? rest
  | none => none

def readStatements? : Nat → List Char → Option (List Statement)
  | 0, _ => none
  | fuel + 1, text =>
    match skipGap? text with
    | none => none
    | some [] => some []
    | some text =>
      match readStatement? text with
      | none => none
      | some (statement, rest) =>
        match endLine? rest with
        | none => none
        | some rest => (readStatements? fuel rest).map (statement :: ·)

-- A byte order mark does not count.
def dropMark : List Char → List Char
  | '\uFEFF' :: rest => rest
  | text => text

def parse? (text : String) : Option Members :=
  let chars := dropMark text.toList
  (readStatements? (chars.length + 1) chars).bind build?

end Rollup.Toml
