/-! Text between two equal marks, in which a mark is written twice.

`quote` writes such a text and `splitQuoted` finds where it ends. Reading gives back what was
written, whatever follows, as long as what follows does not begin with the mark.
-/

set_option autoImplicit false

namespace Rollup.Text

def double (mark : Char) : List Char → List Char
  | [] => []
  | c :: rest => if c = mark then mark :: mark :: double mark rest else c :: double mark rest

def undouble (mark : Char) : List Char → List Char
  | [] => []
  | [c] => [c]
  | c :: d :: rest =>
    if c = mark then
      if d = mark then mark :: undouble mark rest else mark :: undouble mark (d :: rest)
    else c :: undouble mark (d :: rest)

def quoteChars (mark : Char) (text : List Char) : List Char :=
  mark :: (double mark text ++ [mark])

def quote (mark : Char) (text : String) : String :=
  String.ofList (quoteChars mark text.toList)

/-- The text up to the first mark that is not doubled, still with its marks doubled, and the text
behind that mark. -/
def splitQuoted (mark : Char) : List Char → Option (List Char × List Char)
  | [] => none
  | [c] => if c = mark then some ([], []) else none
  | c :: d :: rest =>
    if c = mark then
      if d = mark then (splitQuoted mark rest).map fun (body, tail) => (mark :: mark :: body, tail)
      else some ([], d :: rest)
    else (splitQuoted mark (d :: rest)).map fun (body, tail) => (c :: body, tail)

end Rollup.Text
