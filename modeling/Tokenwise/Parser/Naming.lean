import Tokenwise.Parser.Basic

/-!
# Naming

A name stands for the next token to be consumed, and is what a failure there
reports as expected.  Of names that are nested, `Parser.named` lets the inner
one win, and `Parser.namedIfAbsent` the outer one.
-/

namespace Tokenwise

namespace Parser

variable {Op : Type}

/-- Gives the next token to be consumed a name, in place of one that it has. -/
def named (p : Parser Op) (name : String) : Parser Op where
  run stream context := p.run stream (context.withName name)

/-- Gives the next token to be consumed a name unless it has one. -/
def namedIfAbsent (p : Parser Op) (name : String) : Parser Op where
  run stream context := p.run stream (context.withDefaultName name)

end Parser

end Tokenwise
