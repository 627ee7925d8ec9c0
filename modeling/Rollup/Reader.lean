/-! Readers: grammars as programs over a sequence of tokens.

A reader takes tokens from the front of what is ahead. A choice is ordered: its second reader
starts where the first one did, and only if the first one does not match. A repetition goes on as
long as its step matches, and does not come back on that.
-/

set_option autoImplicit false

namespace Rollup

/-- What a reader makes of the tokens ahead. -/
structure Attempt (τ α : Type) where
  result : Option (α × List τ)
  /-- How many tokens are ahead of the farthest place that the reader came to. -/
  ahead : Nat

def Reader (τ α : Type) := List τ → Attempt τ α

namespace Reader

variable {τ α β : Type}

instance : Monad (Reader τ) where
  pure value := fun tokens => ⟨some (value, tokens), tokens.length⟩
  bind first next := fun tokens =>
    match first tokens with
    | ⟨none, ahead⟩ => ⟨none, ahead⟩
    | ⟨some (value, rest), ahead⟩ =>
      let after := next value rest
      ⟨after.result, min ahead after.ahead⟩

def fail : Reader τ α := fun tokens => ⟨none, tokens.length⟩

def select (value? : τ → Option α) : Reader τ α := fun tokens =>
  match tokens with
  | [] => ⟨none, 0⟩
  | token :: rest =>
    match value? token with
    | none => ⟨none, rest.length + 1⟩
    | some value => ⟨some (value, rest), rest.length⟩

def just [DecidableEq τ] (token : τ) : Reader τ Unit :=
  select fun found => if found = token then some () else none

def orElse (first second : Reader τ α) : Reader τ α := fun tokens =>
  match first tokens with
  | ⟨some found, ahead⟩ => ⟨some found, ahead⟩
  | ⟨none, ahead⟩ =>
    let other := second tokens
    ⟨other.result, min ahead other.ahead⟩

def choice : List (Reader τ α) → Reader τ α
  | [] => fail
  | reader :: others => orElse reader (choice others)

def optional (reader : Reader τ α) : Reader τ (Option α) :=
  orElse (some <$> reader) (pure none)

def folding (step : α → Reader τ α) : Nat → α → Reader τ α
  | 0, value => pure value
  | bound + 1, value => do
    match ← optional (step value) with
    | some value => folding step bound value
    | none => pure value

def repeatedly (step : α → Reader τ α) (value : α) : Reader τ α :=
  -- A step takes a token, so there are no more steps than tokens.
  fun tokens => folding step tokens.length value tokens

def foldl (first : Reader τ α) (step : α → Reader τ α) : Reader τ α :=
  first >>= repeatedly step

def prefixing (sign : Reader τ Unit) (operand : Reader τ α) (apply : α → α) : Nat → Reader τ α
  | 0 => operand
  | bound + 1 => do
    match ← optional sign with
    | some () => return apply (← prefixing sign operand apply bound)
    | none => operand

/-- All the signs there are and an operand, to which they apply from the last one to the first. -/
def foldr (sign : Reader τ Unit) (operand : Reader τ α) (apply : α → α) : Reader τ α :=
  fun tokens => prefixing sign operand apply tokens.length tokens

def another (item : Reader τ α) (separator : Reader τ Unit) (items : List α) :
    Reader τ (List α) := do
  separator
  return items ++ [← item]

def separated (item : Reader τ α) (separator : Reader τ Unit) : Reader τ (List α) :=
  foldl (List.singleton <$> item) (another item separator)

def delimited (left : Reader τ Unit) (reader : Reader τ α) (right : Reader τ Unit) :
    Reader τ α := do
  left
  let value ← reader
  right
  return value

end Reader

end Rollup
