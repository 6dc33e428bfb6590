import Tokenwise.Value.Basic

/-!
# Equality of values

When two values are the same token, item or result.  A truth value is the
number it counts as, `1` or `0`, and no other two kinds of values are ever
equal: a list is not a tuple, a text is not the list of its characters.
Descriptors list sets: the order of their items does not matter.  Streams
agree in their position and in their whole source, also in what lies before
the position.

Functions are compared as objects: one equals itself, whatever it does, and no
function with another mark.  What the library has made of values under one
mark counts as one object if the values are equal.

`Value.same` recurses on the first of the two values, with one companion for
each type that values are nested in.
-/

namespace Tokenwise

variable {Op : Type}

mutual

/-- Whether two values are equal. -/
def Value.same : Value Op → Value Op → Bool
  | .nothing, .nothing => true
  | .bool a, .bool b => a == b
  | .bool a, .int n => n == a.toInt
  | .int m, .bool b => m == b.toInt
  | .int m, .int n => m == n
  | .text s, .text t => s == t
  | .list vs, .list ws => Value.sameItems vs ws
  | .tuple vs, .tuple ws => Value.sameItems vs ws
  | .dictionary entries, .dictionary others =>
      entries.length == others.length && Value.sameEntries entries others
  | .endOfInput, .endOfInput => true
  | .failMarker, .failMarker => true
  | .descriptor d, .descriptor e => Value.sameDescriptor d e
  | .stream s, .stream t => Value.sameStream s t
  | .success ⟨v, s⟩, .success ⟨w, t⟩ => v.same w && Value.sameStream s t
  | .failure ⟨e, v, s, _⟩, .failure ⟨f, w, t, _⟩ =>
      Value.sameExpected e f && v.same w && Value.sameStream s t
  | .context c, .context d => c == d
  | .function f, .function g => Value.sameCallable f g
  | _, _ => false
termination_by structural v => v

/-- Whether two lists have equal items in the same order. -/
def Value.sameItems : List (Value Op) → List (Value Op) → Bool
  | [], [] => true
  | v :: vs, w :: ws => v.same w && Value.sameItems vs ws
  | _, _ => false
termination_by structural vs => vs

/-- Whether every entry stands, with an equal value, among the others. -/
def Value.sameEntries : List (String × Value Op) → List (String × Value Op) → Bool
  | [], _ => true
  | (key, v) :: entries, others =>
      others.any (fun other => other.1 == key && v.same other.2)
        && Value.sameEntries entries others
termination_by structural entries => entries

/-- Whether two descriptors of one kind list the same set of items. -/
def Value.sameDescriptor : Descriptor (Value Op) → Descriptor (Value Op) → Bool
  | ⟨k, vs⟩, ⟨l, ws⟩ =>
      k == l && Value.allAmong vs ws && ws.all (fun w => Value.someSame vs w)
termination_by structural d => d

/-- Whether each of the first items equals one of the second. -/
def Value.allAmong : List (Value Op) → List (Value Op) → Bool
  | [], _ => true
  | v :: vs, ws => ws.any (fun w => v.same w) && Value.allAmong vs ws
termination_by structural vs => vs

/-- Whether one of the items equals the value. -/
def Value.someSame : List (Value Op) → Value Op → Bool
  | [], _ => false
  | v :: vs, w => v.same w || Value.someSame vs w
termination_by structural vs => vs

/-- Whether two streams stand at one position of equal sources. -/
def Value.sameStream : Stream (Value Op) → Stream (Value Op) → Bool
  | ⟨s, i⟩, ⟨t, j⟩ => i == j && Value.sameSource s t
termination_by structural s => s

/-- Whether two sources are equal, view by view. -/
def Value.sameSource : Source (Value Op) → Source (Value Op) → Bool
  | .whole vs, .whole ws => Value.sameSequence vs ws
  | .view s i, .view t j => i == j && Value.sameSource s t
  | _, _ => false
termination_by structural s => s

/-- Whether two sequences are of one container and have equal tokens. -/
def Value.sameSequence : Sequence (Value Op) → Sequence (Value Op) → Bool
  | .text cs, .text ds => cs == ds
  | .list vs, .list ws => Value.sameItems vs ws
  | .tuple vs, .tuple ws => Value.sameItems vs ws
  | _, _ => false
termination_by structural vs => vs

/-- Whether two expectations are of one kind and list the same items. -/
def Value.sameExpected : Expected (Value Op) → Expected (Value Op) → Bool
  | .unknown, .unknown => true
  | .endOfInput, .endOfInput => true
  | .described d, .described e => Value.sameDescriptor d e
  | _, _ => false
termination_by structural e => e

/-- Whether two functions have one mark and are made in one way of equal values. -/
def Value.sameCallable : Callable Op (Value Op) → Callable Op (Value Op) → Bool
  | .operation _ vs m, .operation _ ws n => m == n && Value.sameItems vs ws
  | .awaiting v a vs m, .awaiting w b ws n =>
      a == b && m == n && v.same w && Value.sameItems vs ws
  | .appendTo v m, .appendTo w n => m == n && v.same w
  | .concatTo v m, .concatTo w n => m == n && v.same w
  | _, _ => false
termination_by structural f => f

end

instance : BEq (Value Op) := ⟨Value.same⟩

instance : BEq (Stream (Value Op)) := ⟨Value.sameStream⟩

namespace Value

@[simp] theorem text_beq_text (s t : String) : ((text s : Value Op) == text t) = (s == t) := rfl

@[simp] theorem char_beq_char (c d : Char) : ((char c : Value Op) == char d) = (c == d) := by
  rw [char, char, text_beq_text, Bool.eq_iff_iff, beq_iff_eq, beq_iff_eq, String.singleton_inj]

/-- The end of the input equals nothing else. -/
theorem endOfInput_beq_eq_false {v : Value Op} (h : v ≠ endOfInput) : (endOfInput == v) = false := by
  cases v with
  | endOfInput => exact absurd rfl h
  | _ => rfl

end Value

end Tokenwise
