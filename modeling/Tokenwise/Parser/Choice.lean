import Tokenwise.Parser.Basic

/-!
# Choice

`Parser.orElse` tries another parser where the first one has failed, provided
that the first one has consumed nothing or is marked as backtracking.  If both
fail, what the two expected is listed together when it is of one kind;
otherwise the second failure stands.

`Parser.alternatives` is a choice among any number of parsers.  It stops early
when the failures so far have come to lie past the start.
-/

namespace Tokenwise

/-- The failure of two alternatives that have both failed. -/
def Failure.merge {Op : Type} (left right : Failure (Value Op)) : Failure (Value Op) :=
  match left.expected, right.expected with
  | .described d, .described e =>
      if d.kind = e.kind then
        { expected := .described (d.merge e), actual := right.actual,
          remainder := right.remainder }
      else right
  | _, _ => right

/-- A merged failure lies where the second one does. -/
@[simp] theorem Failure.remainder_merge {Op : Type} (left right : Failure (Value Op)) :
    (left.merge right).remainder = right.remainder := by
  unfold Failure.merge
  split
  · split <;> rfl
  · rfl

/-- A merged failure has found what the second one has. -/
@[simp] theorem Failure.actual_merge {Op : Type} (left right : Failure (Value Op)) :
    (left.merge right).actual = right.actual := by
  unfold Failure.merge
  split
  · split <;> rfl
  · rfl

/-- A merged failure expects something of the kind that the second one does. -/
@[simp] theorem Failure.kind_merge {Op : Type} (left right : Failure (Value Op)) :
    (left.merge right).expected.kind = right.expected.kind := by
  unfold Failure.merge
  split
  case h_1 d e hleft hright =>
      by_cases hkind : d.kind = e.kind
      · rw [if_pos hkind, hright]
        exact congrArg (fun kind => some (some kind)) hkind
      · rw [if_neg hkind]
  case h_2 => rfl

/-- A failure that expected nothing specific adds nothing. -/
theorem Failure.merge_of_unknown {Op : Type} {left : Failure (Value Op)}
    (h : left.expected = .unknown) (right : Failure (Value Op)) :
    left.merge right = right := by
  simp [Failure.merge, h]

namespace Parser

variable {Op : Type}

/-- Marks a parser as one that a choice may go on after, wherever it has failed. -/
def backtracking (p : Parser Op) : Parser Op := ⟨p.run, true⟩

/-- Whether a choice at `stream` may go on after `p` has failed. -/
def fallsThrough (p : Parser Op) (failure : Failure (Value Op)) (stream : Stream (Value Op)) :
    Bool :=
  p.backtracks || failure.position == stream.position

/-- Applies the first parser, and the second one if the first one lets it. -/
def orElse (p q : Parser Op) : Parser Op where
  run stream context := do
    match ← p.run stream context with
    | .success output remainder => return .success output remainder
    | .failure left =>
        if p.fallsThrough left stream then
          match ← q.run stream context with
          | .success output remainder => return .success output remainder
          | .failure right =>
              if q.fallsThrough right stream then return .failure (left.merge right)
              else return .failure right
        else return .failure left

/-- Tries the parsers in turn, where those before them have failed with `failure`. -/
def firstOf (stream : Stream (Value Op)) (context : Context) (failure : Failure (Value Op)) :
    List (Parser Op) → Run Op (Reply Op (Value Op))
  | [] => return .failure failure
  | p :: ps =>
      if failure.position = stream.position then do
        match ← p.run stream context with
        | .success output remainder => return .success output remainder
        | .failure next =>
            if p.fallsThrough next stream then
              firstOf stream context (failure.merge next) ps
            else return .failure next
      else return .failure failure

/-- Applies the first of the parsers that matches.  Fails if there are none. -/
def alternatives (ps : List (Parser Op)) : Parser Op where
  run stream context :=
    firstOf stream context
      { expected := .unknown, actual := .failMarker, remainder := stream } ps

/-- Applies a parser, and succeeds with nothing if it has not consumed anything.
The output is the list of what has matched. -/
def optional (p : Parser Op) : Parser Op :=
  (p.map fun output => return .list [output]).orElse (pure (.list []))

end Parser

end Tokenwise
