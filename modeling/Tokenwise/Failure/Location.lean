import Tokenwise.Value.Basic

/-!
# Where a failure lies in a text

A position in a text is a line and a column, both counted from one, where
lines end at line feeds only.  `Failure.note` says the position, and for a text
shows the line with a caret under the character: the start of the line when the
column is small, and otherwise a part of it around the column.

Nothing is shown for tokens in a list, in a tuple or under another stream.
-/

namespace Tokenwise

structure Location where
  line : Nat
  column : Int
  deriving DecidableEq, Repr

namespace Location

def lines : List Char → List (List Char)
  | [] => [[]]
  | c :: cs =>
      if c = '\n' then [] :: lines cs
      else match lines cs with
        | [] => [[c]]
        | line :: more => (c :: line) :: more

/-- The position of the last line feed, or -1 if there is none. -/
def lastBreak (cs : List Char) : Int :=
  cs.length - (cs.reverse.takeWhile (· ≠ '\n')).length - 1

/-- The location of a position, where one past the end is the end. -/
def ofPosition (cs : List Char) (position : Int) : Location :=
  let position := min position cs.length
  let before := cs.take (Slice.place cs.length 0 cs.length position).toNat
  { line := before.count '\n' + 1, column := position - lastBreak before }

/-- The most characters of a line that are shown. -/
def excerptWidth : Nat := 40

/-- The last column for which the start of the line is shown. -/
def lastNearColumn : Int := 20

/-- How many characters of the line are left out on the left. -/
def excerptStart (location : Location) : Nat :=
  if location.column ≤ lastNearColumn then 0 else (location.column - lastNearColumn).toNat

def excerpt (location : Location) (line : List Char) : List Char :=
  (line.drop location.excerptStart).take excerptWidth

def indent (location : Location) : Nat :=
  (location.column - 1 - location.excerptStart).toNat

/-- The line with a caret under the column, after the line break that ends
what is before it. -/
def pointer (location : Location) (cs : List Char) : List Char :=
  match (lines cs)[location.line - 1]? with
  | none => []
  | some line =>
      '\n' :: location.excerpt line
        ++ '\n' :: List.replicate location.indent ' ' ++ ['^']

end Location

namespace Failure

variable {α : Type}

/-- The text that a failure lies in, if its source is one. -/
def text? (failure : Failure α) : Option (List Char) :=
  match failure.remainder.source with
  | .whole (.text cs) => some cs
  | _ => none

def location (failure : Failure α) : Option Location :=
  failure.text?.map (Location.ofPosition · failure.position)

/-- The position of the mismatch in words, and in the text. -/
def note (failure : Failure α) : String :=
  let start := "At position " ++ toString failure.position
  match failure.text? with
  | none => start
  | some cs =>
      let location := Location.ofPosition cs failure.position
      start ++ " (line " ++ toString location.line
        ++ ", column " ++ toString location.column ++ ")"
        ++ String.ofList (location.pointer cs)

end Failure

end Tokenwise
