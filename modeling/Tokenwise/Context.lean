/-!
# Contexts

What a parser is told besides the stream it is applied to: a human friendly
name for the next token to be consumed, if there is one.  A name set from
outside wins over a default, and `Context.withoutName` forgets it, which is
what sequencing does before every parser but the first.
-/

namespace Tokenwise

/-- The name under which the next token is reported when it does not match. -/
structure Context where
  name : Option String := none
  deriving DecidableEq, Repr

namespace Context

/-- Names the next token, replacing a name that is already there. -/
def withName (_ : Context) (label : String) : Context := ⟨some label⟩

/-- Names the next token unless it has a name already. -/
def withDefaultName (context : Context) (label : String) : Context :=
  ⟨some (context.name.getD label)⟩

/-- Forgets the name. -/
def withoutName (_ : Context) : Context := ⟨none⟩

/-- What to report as expected: the name alone if there is one, and the given
labels otherwise. -/
def labelsOr {α : Type} (context : Context) (ofName : String → α) (labels : List α) : List α :=
  match context.name with
  | some label => [ofName label]
  | none => labels

end Context

end Tokenwise
