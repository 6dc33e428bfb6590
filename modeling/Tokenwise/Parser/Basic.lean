import Tokenwise.Run
import Tokenwise.Value.Distinct

/-!
# Parsers

A **parser** is applied to the input that remains and to a context.  It replies
with an output and the input it has left, or with a failure.  It may also be
marked as backtracking, which lets a choice go on after it has failed, however
far it had come.

This module holds the parsers that look at no tokens, `Parser.pure` and
`Parser.fail`, and `Parser.map`, which changes an output.
-/

namespace Tokenwise

/-- What a parser replies. -/
inductive Reply (Op α : Type) where
  | success (output : α) (remainder : Stream (Value Op))
  | failure (failure : Failure (Value Op))

/-- What is called with a stream and a context to be parsed. -/
structure Parser (Op : Type) where
  run : Stream (Value Op) → Context → Run Op (Reply Op (Value Op))
  backtracks : Bool := false

namespace Reply

variable {Op α β : Type}

/-- Changes the output of a success. -/
def mapOutput (f : α → β) : Reply Op α → Reply Op β
  | success output remainder => success (f output) remainder
  | failure f => failure f

/-- Goes on after a success, and passes a failure on. -/
def andThen (reply : Reply Op α) (next : α → Stream (Value Op) → Run Op (Reply Op β)) :
    Run Op (Reply Op β) :=
  match reply with
  | success output remainder => next output remainder
  | failure f => Pure.pure (failure f)

end Reply

namespace Parser

variable {Op : Type}

/-- Produces the value without consuming anything. -/
def pure (v : Value Op) : Parser Op where
  run stream _ := return .success v stream

/-- Fails where it is applied. -/
def fail (expected : Expected (Value Op) := .unknown) (actual : Value Op := .failMarker) :
    Parser Op where
  run stream _ := return .failure { expected, actual, remainder := stream }

/-- Applies the parser and pipes the output through a function. -/
def map (p : Parser Op) (f : Value Op → Run Op (Value Op)) : Parser Op where
  run stream context := do
    (← p.run stream context).andThen fun output remainder =>
      return .success (← f output) remainder

end Parser

end Tokenwise
