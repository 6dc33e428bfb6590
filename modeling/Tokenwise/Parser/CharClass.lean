import Tokenwise.Parser.Choice
import Tokenwise.Parser.Matcher
import Tokenwise.Parser.Naming
import Tokenwise.Parser.Repetition

/-!
# Parsers for classes of characters

Letters, digits and white space of ASCII, each under its name unless the
context has one already, and the matcher that takes any token.
-/

namespace Tokenwise

namespace Parser

variable {Op : Type}

/-- The characters of a class as tokens. -/
def tokensOf (s : String) : List (Value Op) := s.toList.map Value.char

def letter : Parser Op :=
  ((oneOf (tokensOf CharClass.lowercase)).orElse
    (oneOf (tokensOf CharClass.uppercase))).namedIfAbsent "letter"

def digit : Parser Op := (oneOf (tokensOf CharClass.digits)).namedIfAbsent "digit"

def whitespace : Parser Op :=
  (oneOf (tokensOf CharClass.whitespace)).namedIfAbsent "whitespace"

def whitespaces (limit : Nat) : Parser Op := whitespace.repeated .any limit

def anyToken : Parser Op := noneOf []

end Parser

end Tokenwise
