import Tokenwise.Parser.Basic

/-!
# Matchers

The parsers that look at tokens.  A one-token matcher (`Parser.satisfying`)
takes the next token if it passes a test, and otherwise fails with the token it
has found, or with the end of the input, where it stands.  What it reports as
expected are its labels, or the name in the context if there is one.

`Parser.literal` matches the characters of a text.  A mismatch is reported at
the first character that differs, with the whole text as expected.
-/

namespace Tokenwise

namespace Parser

variable {Op : Type}

/-- The failure of a matcher that reports `labels`, unless the context has a name. -/
def mismatch (kind : Descriptor.Kind) (labels : List (Value Op)) (context : Context)
    (found : Option (Value Op)) (remainder : Stream (Value Op)) : Failure (Value Op) where
  expected := .described (.ofItems kind (context.labelsOr .text labels))
  actual := found.getD .endOfInput
  remainder := remainder

/-- Matches one token that passes the test. -/
def satisfying (test : Value Op → Bool) (kind : Descriptor.Kind) (labels : List (Value Op)) :
    Parser Op where
  run stream context := do
    let found ← stream.peek
    match found.filter test with
    | some token => return .success token (← stream.advance)
    | none => return .failure (mismatch kind labels context found stream)

/-- Matches one token equal to `expected`. -/
def token (expected : Value Op) : Parser Op :=
  satisfying (· == expected) .oneOf [expected]

/-- Matches one token not equal to `unexpected`. -/
def notToken (unexpected : Value Op) : Parser Op :=
  satisfying (· != unexpected) .noneOf [unexpected]

/-- Matches one token that is among the choices. -/
def oneOf (choices : List (Value Op)) : Parser Op :=
  satisfying choices.contains .oneOf choices

/-- Matches one token that is not among those excluded. -/
def noneOf (excluded : List (Value Op)) : Parser Op :=
  satisfying (!excluded.contains ·) .noneOf excluded

/-- Matches the characters `cs` from `offset` on, as the end of the literal `s`. -/
def literalFrom (s : String) (stream : Stream (Value Op)) (context : Context) (offset : Nat) :
    List Char → Run Op (Reply Op (Value Op))
  | [] => return .success (.text s) (← stream.advance offset)
  | c :: cs => do
      let here ← stream.advance offset
      let found ← here.peek
      if found.any (· == .char c) then literalFrom s stream context (offset + 1) cs
      else return .failure (mismatch .oneOf [.text s] context found here)

/-- Matches the characters of a text in order. -/
def literal (s : String) : Parser Op where
  run stream context := literalFrom s stream context 0 s.toList

end Parser

end Tokenwise
