/-! Character classes and measures of source text.

Offsets into a text count the bytes of its UTF-8 form. Words of the input languages are ASCII, so
letter case is folded for ASCII letters only, except where the module says otherwise.
-/

set_option autoImplicit false

namespace Rollup.Text

/-- The characters with the Unicode property White_Space. -/
def isBlank (c : Char) : Bool :=
  let n := c.toNat
  (0x9 ≤ n && n ≤ 0xD) || n == 0x20 || n == 0x85 || n == 0xA0 || n == 0x1680 ||
    (0x2000 ≤ n && n ≤ 0x200A) || n == 0x2028 || n == 0x2029 || n == 0x202F || n == 0x205F ||
    n == 0x3000

def byteLength : List Char → Nat
  | [] => 0
  | c :: rest => c.utf8Size + byteLength rest

@[simp] theorem byteLength_append (left right : List Char) :
    byteLength (left ++ right) = byteLength left + byteLength right := by
  induction left with
  | nil => simp [byteLength]
  | cons c rest ih => simp [byteLength, ih, Nat.add_assoc]

theorem byteLength_pos {text : List Char} (some_ : text ≠ []) : 0 < byteLength text := by
  cases text with
  | nil => exact absurd rfl some_
  | cons c rest => exact Nat.add_pos_left c.utf8Size_pos _

def trimStart (text : List Char) : List Char :=
  text.dropWhile isBlank

def trim (text : List Char) : List Char :=
  (trimStart (trimStart text).reverse).reverse

def asciiLower (text : String) : String :=
  String.ofList (text.toList.map Char.toLower)

def sameWord (left right : String) : Bool :=
  asciiLower left == asciiLower right

/-- A text with the letters made small that have an ASCII letter for lower case. -/
def wordLower (text : String) : String :=
  -- The Kelvin sign is the only such letter outside of ASCII.
  String.ofList (text.toList.map fun c => if c == '\u212A' then 'k' else c.toLower)

def dropWord (word text : List Char) : Option (List Char) :=
  match word, text with
  | [], rest => some rest
  | _ :: _, [] => none
  | w :: word, c :: rest => if w == c then dropWord word rest else none

end Rollup.Text
