import Tokenwise.Parser.Basic

/-!
# Deferred parsers

A parser that is found only when it is used can refer to one that is defined
later, or to itself.  Looking for it is a run of its own, which need not find
one: what is found may turn out not to be a parser.
-/

namespace Tokenwise

namespace Parser

variable {Op : Type}

/-- Applies a parser that is found each time it is used. -/
def deferred (find : Unit → Run Op (Parser Op)) : Parser Op where
  run stream context := do
    let p ← find ()
    Run.report (.resolved stream.position)
    p.run stream context

/-- Finds a value where a parser is looked for. -/
def deferredValue (v : Value Op) : Parser Op :=
  deferred fun _ => Run.raise (.notAParser v.typeName)

end Parser

end Tokenwise
