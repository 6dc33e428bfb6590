import Tokenwise.Value.Equality

/-!
# Hash keys

What a value is filed under when it is looked up in a set.  Equal values have
equal keys; the converse does not hold, and is not needed, since a look-up
compares values once their keys agree.  A truth value is filed under the
number it equals, a stream and a success under their position, a descriptor
under its kind and the number of its items, since the order of these does not
matter.

Lists and dictionaries have no key, and a tuple has none if one of its items
has none.
-/

namespace Tokenwise

/-- What a value is filed under. -/
inductive HashKey where
  | nothing
  | number (n : Int)
  | text (s : String)
  | emptyTuple
  | tuple (first rest : HashKey)
  | endOfInput
  | failMarker
  | descriptor (kind : Descriptor.Kind) (count : Nat)
  | failure (expected : Option (Option Descriptor.Kind)) (position : Int)
  | function
  deriving DecidableEq, Repr

variable {Op : Type}

/-- The kind of an expected descriptor: `none` if nothing specific was expected,
`some none` for the end of the input. -/
def Expected.kind {α : Type} : Expected α → Option (Option Descriptor.Kind)
  | .unknown => none
  | .endOfInput => some none
  | .described d => some (some d.kind)

mutual

/-- The key of a value, if it has one. -/
def Value.hashKey : Value Op → Option HashKey
  | .nothing => some .nothing
  | .bool b => some (.number b.toInt)
  | .int n => some (.number n)
  | .text s => some (.text s)
  | .list _ | .dictionary _ => none
  | .tuple vs => Value.tupleKey vs
  | .endOfInput => some .endOfInput
  | .failMarker => some .failMarker
  | .descriptor d => some (.descriptor d.kind d.items.length)
  | .stream s => some (.number s.position)
  | .success s => some (.number s.remainder.position)
  | .failure f => some (.failure f.expected.kind f.position)
  | .context c => some (c.name.elim .nothing .text)
  | .function _ => some .function
termination_by structural v => v

/-- The key of a tuple of the items, if all of them have one. -/
def Value.tupleKey : List (Value Op) → Option HashKey
  | [] => some .emptyTuple
  | v :: vs =>
      match v.hashKey, Value.tupleKey vs with
      | some first, some rest => some (.tuple first rest)
      | _, _ => none
termination_by structural vs => vs

end

/-- Whether a value has a key. -/
def Value.isHashable (v : Value Op) : Bool := v.hashKey.isSome

end Tokenwise
