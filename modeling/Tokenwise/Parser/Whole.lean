import Tokenwise.Failure.Location
import Tokenwise.Parser.Basic

/-!
# Parsing a whole input

`Parser.parse` applies a parser to an input which must be consumed entirely,
and reports what it does.  Its verdict is an output or a failure; an output
that is itself a failure counts as one.

A failure can be raised with a note on its position.  One that the user has
written out, and marked, keeps the notes from each time it was raised, in a
`Notebook`.
-/

namespace Tokenwise

/-- What comes of parsing a whole input. -/
inductive Verdict (Op : Type) where
  | output (v : Value Op)
  | failure (failure : Failure (Value Op))

/-- The verdict on an input that has been consumed. -/
def Verdict.ofOutput {Op : Type} : Value Op → Verdict Op
  | .failure f => .failure f
  | v => .output v

/-- Applies a parser to a whole input. -/
def Parser.parse {Op : Type} (p : Parser Op) (input : Source (Value Op)) :
    Run Op (Verdict Op) := do
  Run.report (.parsing (← input.size))
  match ← p.run ⟨input, 0⟩ {} with
  | .failure failure =>
      Run.report (.failed failure)
      return .failure failure
  | .success output remainder =>
      if ← remainder.isAtEnd then return .ofOutput output
      else
        Run.report (.trailing remainder.position)
        return .failure { expected := .endOfInput, actual := .stream remainder, remainder }

/-- The notes that marked failures have been given so far, the newest entry of
a mark first. -/
structure Notebook where
  entries : List (Nat × List String) := []

namespace Notebook

/-- The notes of a failure so far. -/
def notes {α : Type} (notebook : Notebook) (failure : Failure α) : List String :=
  (failure.mark.bind fun mark => notebook.entries.lookup mark).getD []

/-- Gives a failure the note on its position once more. -/
def annotate {α : Type} (notebook : Notebook) (failure : Failure α) : Notebook :=
  match failure.mark with
  | none => notebook
  | some mark => ⟨(mark, notebook.notes failure ++ [failure.note]) :: notebook.entries⟩

/-- All notes of a failure that is raised once more. -/
def notesWhenRaised {α : Type} (notebook : Notebook) (failure : Failure α) : List String :=
  notebook.notes failure ++ [failure.note]

end Notebook

end Tokenwise
