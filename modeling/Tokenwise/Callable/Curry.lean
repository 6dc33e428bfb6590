import Tokenwise.Callable.Basic

/-!
# Currying

`curry` turns a function of several arguments into one that takes them one at
a time.  If the number of arguments is not given it is counted: the parameters
that a position can fill and that have no default.  A parameter that stands for
any number of arguments, or one that must be passed by keyword, is in the way,
and the first such parameter says what is wrong.
-/

namespace Tokenwise

namespace Parameter

/-- The number of arguments that must be passed by position. -/
def requiredCount (shown : String) : List Parameter → Except Fault Nat
  | [] => .ok 0
  | ⟨.variablePositional, _⟩ :: _ | ⟨.variableKeyword, _⟩ :: _ =>
      .error (.variableArguments shown)
  | ⟨_, true⟩ :: more => requiredCount shown more
  | ⟨.keywordOnly, false⟩ :: _ => .error (.keywordRequired shown)
  | ⟨_, false⟩ :: more => do
      return (← requiredCount shown more) + 1

end Parameter

variable {Op : Type} [Operations Op]

/-- The number of arguments that a value requires by position. -/
def Value.requiredCount (f : Value Op) : Except Fault Nat :=
  match f.parameters? with
  | some parameters => Parameter.requiredCount f.inspect parameters
  | none => .error (.unknownParameters f.inspect)

/-- The function that takes `arity` arguments of `f` one at a time, or as many
as `f` requires. -/
def curry (f : Value Op) (arity : Option Int := none) : Except Fault (Value Op) := do
  let count : Int ← match arity with
    | some arity => pure arity
    | none => do pure ((← f.requiredCount) : Int)
  if count < 1 then .error .nothingToCurry
  else .ok (.function (.awaiting f count.toNat []))

end Tokenwise
