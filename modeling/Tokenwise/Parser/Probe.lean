import Tokenwise.Parser.Basic

/-!
# Probes

Parsers that tell what other parsers do not let through: the name in the
context, the position of the stream, and a piece of the input as it is.
-/

namespace Tokenwise

namespace Parser

variable {Op : Type}

/-- Produces the name in the context, without consuming anything. -/
def contextName : Parser Op where
  run stream context := return .success (context.name.elim .nothing .text) stream

/-- Produces the position of the stream, without consuming anything. -/
def position : Parser Op where
  run stream _ := return .success (.int stream.position) stream

/-- Produces the next `n` tokens in the container that they come in, or as many
of them as there are. -/
def take (n : Int) : Parser Op where
  run stream _ := do
    let piece ← stream.rest.slice none (some n) none
    return .success (.ofSequence piece) (← stream.advance n)

end Parser

end Tokenwise
