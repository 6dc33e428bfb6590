import Tokenwise.Sequence

/-!
# Streams

A **stream** is a view of the tokens of a source from a position on.  Its
source is a whole sequence, or again a view of another source, to any depth.
Nothing is ever copied: advancing gives another view of the same source.

Everything about where a token is found is independent of what it is, so it is
said first and once: `Source.locate` takes a position in a source to a place
in the sequence at its bottom, `Source.base`.  A position counts from the end
of the source when it is negative; a view refuses every position outside its
own tokens.  A view that starts past the end of its source has no length, and
asking for one is a fault.

`Stream.rest` is the other reading of a stream, the plain sequence of its
remaining tokens.  It is total: past the end there is nothing.
-/

namespace Tokenwise

/-- Tokens that the characters of a text can stand for. -/
class Token (α : Type) where
  ofChar : Char → α

namespace Sequence

variable {α : Type}

def token? [Token α] (tokens : Sequence α) (place : Nat) : Option α :=
  match tokens with
  | text chars => chars[place]?.map Token.ofChar
  | list items | tuple items => items[place]?

def toList [Token α] : Sequence α → List α
  | text chars => chars.map Token.ofChar
  | list items | tuple items => items

@[simp] theorem length_toList [Token α] (tokens : Sequence α) :
    tokens.toList.length = tokens.size := by
  cases tokens <;> simp [toList, size]

theorem token?_eq [Token α] (tokens : Sequence α) (place : Nat) :
    tokens.token? place = tokens.toList[place]? := by
  cases tokens <;> simp [token?, toList]

@[simp] theorem toList_drop [Token α] (tokens : Sequence α) (position : Int) :
    (tokens.drop position).toList = Slice.drop tokens.toList position := by
  cases tokens <;> simp [drop, toList, Slice.drop]

end Sequence

/-- What a stream reads from. -/
inductive Source (α : Type) where
  | whole (tokens : Sequence α)
  | view (source : Source α) (position : Int)

namespace Source

variable {α : Type}

def base : Source α → Sequence α
  | whole tokens => tokens
  | view source _ => source.base

def size : Source α → Except Fault Nat
  | whole tokens => .ok tokens.size
  | view source position => do
      let total ← source.size
      if position ≤ total then .ok (total - position).toNat else .error .pastTheEnd

/-- The place in `base` of the token at a position. -/
def locate : Source α → Int → Except Fault Nat
  | whole tokens, index => tokens.locate index
  | view source position, index => do
      let count ← (view source position).size
      let offset := if index < 0 then index + count else index
      if 0 ≤ offset ∧ offset < count then source.locate (position + offset)
      else .error .outOfRange

def get [Token α] (source : Source α) (index : Int) : Except Fault α := do
  match source.base.token? (← source.locate index) with
  | some token => .ok token
  | none => .error .noSuchItem

/-- The tokens from a position on, as a plain sequence. -/
def drop : Source α → Int → Sequence α
  | whole tokens, position => tokens.drop position
  | view source start, position => (source.drop start).drop position

end Source

/-- A view of a source from `position` on. -/
structure Stream (α : Type) where
  source : Source α
  position : Int := 0

namespace Stream

variable {α : Type}

def ofSequence (tokens : Sequence α) : Stream α := ⟨.whole tokens, 0⟩

/-- The stream itself as a source of tokens. -/
def asSource (stream : Stream α) : Source α := .view stream.source stream.position

def size (stream : Stream α) : Except Fault Nat := stream.asSource.size

/-- The token at an index, counted from the position. -/
def get [Token α] (stream : Stream α) (index : Int) : Except Fault α :=
  stream.asSource.get index

def isAtEnd (stream : Stream α) : Except Fault Bool := do
  return decide ((← stream.source.size) ≤ stream.position)

def peek [Token α] (stream : Stream α) : Except Fault (Option α) := do
  if ← stream.isAtEnd then return none
  return some (← stream.source.get stream.position)

/-- The view that starts `amount` tokens later, or at the end of the source if
there are fewer. -/
def advance (stream : Stream α) (amount : Int := 1) : Except Fault (Stream α) := do
  return ⟨stream.source, min (stream.position + amount) (← stream.source.size)⟩

/-- The remaining tokens as a plain sequence. -/
def rest (stream : Stream α) : Sequence α := stream.source.drop stream.position

/-- The positions in the source from `position` to the end. -/
def positions (stream : Stream α) : Except Fault (List Int) := do
  let count := ((← stream.source.size) - stream.position).toNat
  return (List.range count).map fun offset : Nat => stream.position + offset

/-- The places in the base of the source of the remaining tokens. -/
def places (stream : Stream α) : Except Fault (List Nat) := do
  (← stream.positions).mapM stream.source.locate

/-- The remaining tokens, one by one. -/
def toList [Token α] (stream : Stream α) : Except Fault (List α) := do
  (← stream.positions).mapM stream.source.get

/-- The remaining tokens from the last to the first. -/
def toListReversed [Token α] (stream : Stream α) : Except Fault (List α) := do
  (List.range (← stream.size)).reverse.mapM fun index : Nat => stream.get index

/-- Whether one of the remaining tokens passes the test.  Tokens after the
first one that does are not looked at. -/
def any [Token α] (stream : Stream α) (test : α → Bool) : Except Fault Bool := do
  (← stream.positions).anyM (fun position => return test (← stream.source.get position))

def count [Token α] (stream : Stream α) (test : α → Bool) : Except Fault Nat :=
  return (← stream.toList).countP test

/-- The first of `count` indices from `index` on whose token passes the test.
An index without a token ends the search. -/
def findFrom [Token α] (stream : Stream α) (test : α → Bool) (index : Nat) :
    Nat → Except Fault Nat
  | 0 => .error .notFound
  | count + 1 =>
      match stream.get index with
      | .ok token =>
          if test token then .ok index else stream.findFrom test (index + 1) count
      | .error .outOfRange | .error .noSuchItem => .error .notFound
      | .error fault => .error fault

/-- The first index from `start` on and before `stop` whose token passes the
test.  Negative bounds count from the end. -/
def index [Token α] (stream : Stream α) (test : α → Bool) (start : Int := 0)
    (stop : Option Int := none) : Except Fault Nat := do
  let size ← stream.size
  let first := (if start < 0 then max (size + start) 0 else start).toNat
  let last := match stop with
    | none => size
    | some stop => min size (if stop < 0 then size + stop else stop).toNat
  stream.findFrom test first (last - first)

def slice (stream : Stream α) (start stop step : Option Int) :
    Except Fault (Sequence α) :=
  stream.rest.slice start stop step

end Stream

end Tokenwise
