import Tokenwise.Context
import Tokenwise.Stream

/-!
# Values

Tokens, outputs and what descriptors list are all **values**: plain data,
the objects of parsing itself (streams, descriptors, results, contexts, the
two markers), and functions.

The objects are first declared over an arbitrary type of values, and `Value`
then ties the knot.  Functions are data as well.  `Op` is the type of the
operations that a user of the library brings along; a function is one of
those with the values it has captured, or is made of other functions.

Functions are objects, and whether two are the same one is not seen from what
they do.  So each has a mark, which stands for its identity.

Three invariants are kept by those who build values and not by the types: a
descriptor lists no two equal items (`Descriptor.ofItems`), a function that
awaits arguments has been given fewer than it takes (`curry`), and operations
of one mark are one operation.
-/

namespace Tokenwise

/-- Whether a descriptor lists what would match or what would not. -/
inductive Descriptor.Kind where
  | oneOf
  | noneOf
  deriving DecidableEq, Repr

/-- A description of the tokens that would have matched: one of the items, or
anything but the items.  The items are tokens or labels. -/
structure Descriptor (α : Type) where
  kind : Descriptor.Kind
  items : List α

/-- What would have allowed a parser to succeed. -/
inductive Expected (α : Type) where
  /-- Nothing specific. -/
  | unknown
  /-- The end of the input. -/
  | endOfInput
  /-- A token that fits the descriptor. -/
  | described (descriptor : Descriptor α)

/-- The output of a parser and the input that it has left. -/
structure Success (α : Type) where
  output : α
  remainder : Stream α

/-- Why a parser did not match: what was expected, what was there instead, and
the input at the exact position of the mismatch.

A failure that is itself a value, written out by the user, may be marked.  Two
failures with one mark are the same object, which shows only in the notes that
are added to it. -/
structure Failure (α : Type) where
  expected : Expected α
  actual : α
  remainder : Stream α
  mark : Option Nat := none

def Failure.position {α : Type} (failure : Failure α) : Int :=
  failure.remainder.position

/-- A function among values.

Two functions with different marks are different objects.  Those that the
library makes of values are told apart by these as well, so that the mark is
only needed where two have been made of the same ones. -/
inductive Callable (Op α : Type) where
  /-- An operation with the values it has captured. -/
  | operation (op : Op) (captured : List α) (mark : Nat)
  /-- A function of `arity` arguments that takes them one at a time. -/
  | awaiting (function : α) (arity : Nat) (given : List α) (mark : Nat := 0)
  /-- Appends its argument to the items. -/
  | appendTo (items : α) (mark : Nat := 0)
  /-- Appends the items of its argument to the items. -/
  | concatTo (items : α) (mark : Nat := 0)

/-- The values that parsers read and produce. -/
inductive Value (Op : Type) where
  | nothing
  | bool (b : Bool)
  | int (n : Int)
  | text (s : String)
  | list (items : List (Value Op))
  | tuple (items : List (Value Op))
  | dictionary (entries : List (String × Value Op))
  | endOfInput
  | failMarker
  | descriptor (d : Descriptor (Value Op))
  | stream (s : Stream (Value Op))
  | success (s : Success (Value Op))
  | failure (f : Failure (Value Op))
  | context (c : Context)
  | function (f : Callable Op (Value Op))

namespace Value

variable {Op : Type}

def char (c : Char) : Value Op := text (String.singleton c)

/-- A character of a text is the text of that character. -/
instance : Token (Value Op) := ⟨char⟩

def ofSequence : Sequence (Value Op) → Value Op
  | .text chars => text (String.ofList chars)
  | .list items => list items
  | .tuple items => tuple items

def ofExpected : Expected (Value Op) → Value Op
  | .unknown => nothing
  | .endOfInput => endOfInput
  | .described d => descriptor d

def typeName : Value Op → String
  | nothing => "NoneType"
  | bool _ => "bool"
  | int _ => "int"
  | text _ => "str"
  | list _ => "list"
  | tuple _ => "tuple"
  | dictionary _ => "dict"
  | endOfInput => "EndOfInput"
  | failMarker => "FailMarker"
  | descriptor ⟨.oneOf, _⟩ => "OneOf"
  | descriptor ⟨.noneOf, _⟩ => "NoneOf"
  | stream _ => "TokenStream"
  | success _ => "Success"
  | failure _ => "ParseError"
  | context _ => "Context"
  | function _ => "function"

/-- The items of a value that can be gone through one by one: characters of a
text, items of a list or tuple, keys of a dictionary, remaining tokens of a
stream. -/
def items : Value Op → Except Fault (List (Value Op))
  | text s => .ok (s.toList.map char)
  | list vs | tuple vs => .ok vs
  | dictionary entries => .ok (entries.map fun entry => text entry.1)
  | stream s => s.toList
  | _ => .error .notIterable

/-- Whether a value counts as true: not empty, not zero, not absent, and not a
failure. -/
def truth : Value Op → Except Fault Bool
  | nothing => .ok false
  | bool b => .ok b
  | int n => .ok (n != 0)
  | text s => .ok (!s.isEmpty)
  | list vs | tuple vs => .ok (!vs.isEmpty)
  | dictionary entries => .ok (!entries.isEmpty)
  | stream s => return (← s.size) != 0
  | failure _ => .ok false
  | _ => .ok true

end Value

end Tokenwise
