import Tokenwise.Text.CharClass
import Tokenwise.Text.Listing
import Tokenwise.Text.Quoted
import Tokenwise.Value.Basic

/-!
# The text of values

There are three ways to write a value.

* `Value.inspect` writes it so that values of different kinds look different:
  texts in quotes, items in brackets, objects by what they are made of.  Every
  value can be written so.
* `Value.plain` writes it for a reader.  A text stands for itself, a descriptor
  reads as the alternatives it lists, and a failure is its one-line message,
  `Failure.message`.  All else is as `inspect` has it.
* `Value.display` is for tokens and labels in a message: it is `plain`, except
  that white space goes by its name.

A message shows the trailing tokens of a stream one by one.  These are found
through their places in the base of the source, so that going into them is
going into a part of the value; a stream over a view that starts past its end
has no places, and then the message cannot be written.
-/

namespace Tokenwise

variable {Op : Type}

/-- A sequence of written items, in the brackets of its container. -/
def Sequence.inspectWritten : Sequence String → String
  | .text cs => Quoted.quote (String.ofList cs)
  | .list items => "[" ++ Listing.commas items ++ "]"
  | .tuple [item] => "(" ++ item ++ ",)"
  | .tuple items => "(" ++ Listing.commas items ++ ")"

def Context.inspect (context : Context) : String :=
  "Context(name=" ++ (context.name.elim "None" Quoted.quote) ++ ")"

section Inspect

variable [ToString Op]

mutual

/-- A value written so that its kind can be told. -/
def Value.inspect : Value Op → String
  | .nothing => "None"
  | .bool true => "True"
  | .bool false => "False"
  | .int n => toString n
  | .text s => Quoted.quote s
  | .list vs => (Sequence.list (Value.inspectItems vs)).inspectWritten
  | .tuple vs => (Sequence.tuple (Value.inspectItems vs)).inspectWritten
  | .dictionary entries =>
      "\x7b" ++ Listing.commas (Value.inspectEntries entries) ++ "\x7d"
  | .endOfInput => "END_OF_INPUT"
  | .failMarker => "FAIL"
  | .descriptor d => Value.inspectDescriptor d
  | .stream s => Value.inspectStream s
  | .success ⟨v, s⟩ =>
      "Success(" ++ v.inspect ++ ", pos=" ++ toString s.position ++ ")"
  | .failure ⟨e, v, s, _⟩ =>
      "ParseError(expected=" ++ Value.inspectExpected e ++ ", actual=" ++ v.inspect
        ++ ", pos=" ++ toString s.position ++ ")"
  | .context c => c.inspect
  | .function (.operation op _ _) => toString op
  | .function _ => "<function>"
termination_by structural v => v

def Value.inspectItems : List (Value Op) → List String
  | [] => []
  | v :: vs => v.inspect :: Value.inspectItems vs
termination_by structural vs => vs

def Value.inspectEntries : List (String × Value Op) → List String
  | [] => []
  | (key, v) :: entries =>
      (Quoted.quote key ++ ": " ++ v.inspect) :: Value.inspectEntries entries
termination_by structural entries => entries

def Value.inspectDescriptor : Descriptor (Value Op) → String
  | ⟨kind, vs⟩ =>
      (match kind with | .oneOf => "OneOf(" | .noneOf => "NoneOf(")
        ++ (Sequence.list (Value.inspectItems vs)).inspectWritten ++ ")"
termination_by structural d => d

def Value.inspectStream : Stream (Value Op) → String
  | ⟨source, position⟩ =>
      "TokenStream(" ++ ((Value.inspectSource source).drop position).inspectWritten
        ++ ", pos=" ++ toString position ++ ")"
termination_by structural s => s

/-- A source with each of its tokens written. -/
def Value.inspectSource : Source (Value Op) → Source String
  | .whole tokens => .whole (Value.inspectSequence tokens)
  | .view source position => .view (Value.inspectSource source) position
termination_by structural s => s

/-- A sequence with each of its tokens written. -/
def Value.inspectSequence : Sequence (Value Op) → Sequence String
  | .text cs => .text cs
  | .list vs => .list (Value.inspectItems vs)
  | .tuple vs => .tuple (Value.inspectItems vs)
termination_by structural vs => vs

def Value.inspectExpected : Expected (Value Op) → String
  | .unknown => "None"
  | .endOfInput => "END_OF_INPUT"
  | .described d => Value.inspectDescriptor d
termination_by structural e => e

end

end Inspect

section Plain

variable [ToString Op]

mutual

/-- A value written for a reader. -/
def Value.plain : Value Op → Except Fault String
  | .text s => .ok s
  | .endOfInput => .ok "end of input"
  | .failMarker => .ok "usage of fail()"
  | .descriptor d => Value.plainDescriptor d
  | .failure f => Failure.message f
  | v => .ok v.inspect
termination_by structural v => v

/-- A descriptor as the alternatives it lists. -/
def Value.plainDescriptor : Descriptor (Value Op) → Except Fault String
  | ⟨.oneOf, vs⟩ => do
      return Listing.alternatives "end of input" (← Value.displayItems vs)
  | ⟨.noneOf, []⟩ => .ok "anything"
  | ⟨.noneOf, vs⟩ => do
      return "none of " ++ Listing.alternatives "" (← Value.displayItems vs)
termination_by structural d => d

def Value.displayItems : List (Value Op) → Except Fault (List String)
  | [] => .ok []
  | v :: vs => do
      let first ← match v with
        | .text s => pure (CharClass.shown s)
        | v => v.plain
      return first :: (← Value.displayItems vs)
termination_by structural vs => vs

/-- Each token of a base, for those of them that are asked for. -/
def Value.displayEach : List (Value Op) → List (Except Fault String)
  | [] => []
  | v :: vs =>
      (match v with
        | .text s => .ok (CharClass.shown s)
        | v => v.plain) :: Value.displayEach vs
termination_by structural vs => vs

def Value.displayBase : Source (Value Op) → List (Except Fault String)
  | .whole tokens => Value.displayTokens tokens
  | .view source _ => Value.displayBase source
termination_by structural s => s

def Value.displayTokens : Sequence (Value Op) → List (Except Fault String)
  | .text cs => cs.map fun c => .ok (CharClass.shown (String.singleton c))
  | .list vs => Value.displayEach vs
  | .tuple vs => Value.displayEach vs
termination_by structural vs => vs

/-- The remaining tokens of a stream: a text as a whole, others one by one. -/
def Value.displayStream : Stream (Value Op) → Except Fault String
  | ⟨source, position⟩ =>
      let displayed := Value.displayBase source
      match source with
      | .whole (.text cs) =>
          .ok (CharClass.shown (String.ofList (Slice.drop cs position)))
      | source => do
          let places ← Stream.places ⟨source, position⟩
          let texts ← places.mapM fun place => displayed[place]?.getD (.error .noSuchItem)
          return String.intercalate " " texts
termination_by structural s => s

/-- The one-line message of a failure. -/
def Failure.message : Failure (Value Op) → Except Fault String
  | ⟨expected, actual, _, _⟩ => do
      let found ← match actual with
        | .stream s => Value.displayStream s
        | .text s => pure (CharClass.shown s)
        | v => v.plain
      match expected with
      | .unknown => return "unexpected " ++ found
      | .endOfInput => return "expected end of input, but found " ++ found
      | .described d =>
          return "expected " ++ (← Value.plainDescriptor d) ++ ", but found " ++ found
termination_by structural f => f

end

/-- A value as a token or a label in a message. -/
def Value.display : Value Op → Except Fault String
  | .text s => .ok (CharClass.shown s)
  | v => v.plain

/-- Tokens or labels in a sentence, or `empty` if there are none. -/
def Value.displayList (vs : List (Value Op)) (empty : String) : Except Fault String :=
  return Listing.alternatives empty (← Value.displayItems vs)

/-- What was found: a token, a marker, or the trailing tokens of a stream. -/
def Value.displayActual : Value Op → Except Fault String
  | .stream s => Value.displayStream s
  | v => v.display

end Plain

end Tokenwise
