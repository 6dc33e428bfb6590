/-!
# Quoted text

A text in quotes, on one line.  Single quotes are used unless the text holds
one and no double quote.  The quote in use and the backslash are written after
a backslash, line breaks, carriage returns and tabs by their letter, and the
other control characters of ASCII by two hexadecimal digits.
-/

namespace Tokenwise.Quoted

/-- The single quote. -/
def single : Char := '\x27'

/-- The double quote. -/
def double : Char := '\x22'

/-- The mark before a character that does not stand for itself. -/
def backslash : Char := '\x5c'

/-- The quote that a text is put in. -/
def delimiter (cs : List Char) : Char :=
  if single ∈ cs ∧ double ∉ cs then double else single

/-- How one character is written between quotes. -/
def escape (quote c : Char) : List Char :=
  if c = quote ∨ c = backslash then [backslash, c]
  else if c = '\n' then [backslash, 'n']
  else if c = '\r' then [backslash, 'r']
  else if c = '\t' then [backslash, 't']
  else if c.toNat < 32 ∨ c.toNat = 127 then
    [backslash, 'x', Nat.digitChar (c.toNat / 16), Nat.digitChar (c.toNat % 16)]
  else [c]

/-- The characters of a text in quotes. -/
def encode (cs : List Char) : List Char :=
  let quote := delimiter cs
  quote :: cs.flatMap (escape quote) ++ [quote]

/-- A text in quotes. -/
def quote (s : String) : String := String.ofList (encode s.toList)

end Tokenwise.Quoted
