import Tokenwise.Parser.Basic

/-!
# Lookahead

`Parser.ahead` and `Parser.notAhead` apply a parser and give all input back,
whether it has matched or not.
-/

namespace Tokenwise

namespace Parser

variable {Op : Type}

/-- Applies `p` without consuming anything. -/
def ahead (p : Parser Op) : Parser Op where
  run stream context := do
    (← p.run stream context).andThen fun output _ => return .success output stream

/-- Succeeds without consuming anything if `p` fails, and fails with the output
of `p` as unexpected if it succeeds. -/
def notAhead (p : Parser Op) : Parser Op where
  run stream context := do
    match ← p.run stream context with
    | .failure _ => return .success .nothing stream
    | .success output _ =>
        return .failure { expected := .unknown, actual := output, remainder := stream }

end Parser

end Tokenwise
