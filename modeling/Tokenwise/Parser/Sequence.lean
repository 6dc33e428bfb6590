import Tokenwise.Callable.Curry
import Tokenwise.Parser.Basic

/-!
# Sequencing

One parser after another.  The second starts where the first has stopped, and
in a context without a name, since a name is for the next token only.  What is
kept is the left output, the right output, or the left output called with the
right one.

`Parser.combine` applies parsers in sequence and calls a function with all of
their outputs, which it collects by currying.
-/

namespace Tokenwise

namespace Parser

variable {Op : Type}

/-- Applies `p`, then `q`, and makes one output of the two. -/
def sequence (p q : Parser Op) (join : Value Op → Value Op → Run Op (Value Op)) :
    Parser Op where
  run stream context := do
    (← p.run stream context).andThen fun left remainder => do
      (← q.run remainder context.withoutName).andThen fun right remainder =>
        return .success (← join left right) remainder

/-- Applies `p`, then `q`, and keeps the output of `p`. -/
def keepLeft (p q : Parser Op) : Parser Op :=
  p.sequence q fun left _ => return left

/-- Applies `p`, then `q`, and keeps the output of `q`. -/
def keepRight (p q : Parser Op) : Parser Op :=
  p.sequence q fun _ right => return right

/-- Applies `p`, then `q`, and calls the output of `p` with that of `q`. -/
def apply [Operations Op] (p q : Parser Op) : Parser Op :=
  p.sequence q fun left right => left.call [right]

/-- Applies the parsers in sequence and calls `f` with their outputs. -/
def combine [Operations Op] (f : Value Op) : List (Parser Op) → Except Fault (Parser Op)
  | [] => .error .noParsers
  | p :: ps => do
      let collect ← curry f (some (ps.length + 1))
      return ps.foldl apply (p.map fun output => collect.call [output])

end Parser

end Tokenwise
