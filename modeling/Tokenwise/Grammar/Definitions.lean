import Tokenwise.Grammar.Basic

/-!
# Definitions

A list of named grammars, which may refer to each other and to themselves.  Of
two definitions of one name the later one counts.

A name that is defined by itself cannot be unfolded once and for all.
`Definitions.resolve` unfolds as many times, one within another, as its fuel
says, and is unfinished for what lies deeper.  With more fuel a parser never
does anything else, it only finishes more often.
-/

namespace Tokenwise

/-- Named grammars. -/
structure Definitions (Op : Type) where
  entries : List (String × Grammar Op) := []

namespace Definitions

variable {Op : Type}

/-- Adds a definition after those that are there. -/
def define (definitions : Definitions Op) (name : String) (g : Grammar Op) : Definitions Op :=
  ⟨(name, g) :: definitions.entries⟩

/-- The grammar that a name stands for. -/
def find? (definitions : Definitions Op) (name : String) : Option (Grammar Op) :=
  definitions.entries.lookup name

variable [Operations Op]

/-- Looks for the parser that a name stands for. -/
def resolve (definitions : Definitions Op) :
    (fuel : Nat) → (name : String) → Run Op (Parser Op)
  | 0, _ => Run.unfinished
  | fuel + 1, name =>
      match definitions.find? name with
      | some g => return g.parser (definitions.resolve fuel) (fuel + 1)
      | none => Run.raise (.undefinedParser name)

/-- The parser that a grammar stands for among the definitions. -/
def parser (definitions : Definitions Op) (fuel : Nat) (g : Grammar Op) : Parser Op :=
  g.parser (definitions.resolve fuel) fuel

end Definitions

end Tokenwise
