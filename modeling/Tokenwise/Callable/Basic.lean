import Tokenwise.Run

/-!
# Functions among values

A user of the library brings operations along, as a type `Op` with an instance
of `Operations`: what an operation does when it is called, and which parameters
it is known to have.  `Value.call` calls any function with a list of arguments.

A function that awaits arguments is never changed by a call.  Given one more,
it is a new function under the same mark, or with the last argument the call of
the function that it stands for.
-/

namespace Tokenwise

/-- How an argument may be passed for a parameter. -/
inductive Parameter.Kind where
  | positionalOnly
  | positionalOrKeyword
  | variablePositional
  | keywordOnly
  | variableKeyword
  deriving DecidableEq, Repr

/-- A parameter in the signature of a function. -/
structure Parameter where
  kind : Parameter.Kind
  hasDefault : Bool
  deriving DecidableEq, Repr

/-- The operations that a user of the library brings along. -/
class Operations (Op : Type) extends ToString Op where
  /-- Calls an operation that has captured some values. -/
  call : Op → List (Value Op) → List (Value Op) → Run Op (Value Op)
  /-- The parameters of an operation, if they are known. -/
  parameters : Op → Option (List Parameter)

namespace Value

variable {Op : Type} [Operations Op]

/-- Calls a value with the arguments. -/
def call : Value Op → List (Value Op) → Run Op (Value Op)
  | function (.operation op captured _), arguments => Operations.call op captured arguments
  | function (.awaiting f arity given mark), [v] =>
      if given.length + 1 = arity then f.call (given ++ [v])
      else pure (function (.awaiting f arity (given ++ [v]) mark))
  | function (.appendTo vs _), [v] => do
      return list ((← vs.items) ++ [v])
  | function (.concatTo vs _), [v] => do
      let first ← vs.items
      return list (first ++ (← v.items))
  | function _, _ => Run.raise .outsideDomain
  | _, _ => Run.raise .notCallable
termination_by structural v => v

/-- The parameters of a value, if it is a function and they are known.
Functions made by the library take one argument. -/
def parameters? : Value Op → Option (List Parameter)
  | function (.operation op _ _) => Operations.parameters op
  | function _ => some [⟨.positionalOrKeyword, false⟩]
  | _ => none

end Value

end Tokenwise
