import Tokenwise.Fault

/-!
# Sequences

The tokens of an input stand in one of three containers: a text, whose tokens
are its characters, a list, or a tuple.  The containers differ in how they are
written and compared, never in how they are indexed or cut.

Positions are integers.  `Sequence.locate` counts a negative one from the end,
and `Sequence.slice` cuts with any bounds and any step but zero: absent bounds
reach to the end that the step comes from or goes to, and bounds outside the
sequence are moved to its nearest end.
-/

namespace Tokenwise

inductive Sequence (α : Type) where
  | text (chars : List Char)
  | list (items : List α)
  | tuple (items : List α)

namespace Slice

/-- The place that a bound stands for in a sequence of `size` items: negative
bounds count from the end, and all are moved into `low … high`. -/
def place (size low high bound : Int) : Int :=
  if bound < 0 then max (bound + size) low else min bound high

/-- The places `start, start + step, …`, `count` of them. -/
def progression (start step : Int) : Nat → List Nat
  | 0 => []
  | count + 1 => start.toNat :: progression (start + step) step count

/-- The places that a slice of a sequence of `size` items picks, in order. -/
def places (size : Nat) (start stop step : Option Int) : Except Fault (List Nat) :=
  let size : Int := size
  let step := step.getD 1
  if step = 0 then
    .error .zeroStep
  else if 0 < step then
    let first := (start.map (place size 0 size)).getD 0
    let last := (stop.map (place size 0 size)).getD size
    .ok (progression first step ((last - first + step - 1) / step).toNat)
  else
    let first := (start.map (place size (-1) (size - 1))).getD (size - 1)
    let last := (stop.map (place size (-1) (size - 1))).getD (-1)
    .ok (progression first step ((first - last - step - 1) / (-step)).toNat)

/-- The items of a list at the given places. -/
def pick {β : Type} (items : List β) (places : List Nat) : List β :=
  places.filterMap (fun place => items[place]?)

/-- The items of a list from `position` on. -/
def drop {β : Type} (items : List β) (position : Int) : List β :=
  items.drop (place items.length 0 items.length position).toNat

theorem place_of_inside {size position : Int} (low : Int) (hstart : 0 ≤ position)
    (hend : position ≤ size) : place size low size position = position := by
  simp only [place]
  split <;> omega

/-- From a position inside on, `drop` is the list's own. -/
theorem drop_of_inside {β : Type} {items : List β} {position : Int} (hstart : 0 ≤ position)
    (hend : position ≤ items.length) : drop items position = items.drop position.toNat := by
  rw [drop, place_of_inside 0 hstart hend]

theorem drop_of_past {β : Type} {items : List β} {position : Int}
    (hpast : items.length ≤ position) : drop items position = [] := by
  have hplace : items.length ≤ (place items.length 0 items.length position).toNat := by
    simp only [place]
    split <;> omega
  exact List.drop_eq_nil_of_le hplace

end Slice

namespace Sequence

variable {α : Type}

def size : Sequence α → Nat
  | text chars => chars.length
  | list items | tuple items => items.length

/-- The place of the token at `position`, which counts from the end when it
is negative. -/
def locate (tokens : Sequence α) (position : Int) : Except Fault Nat :=
  let place := if position < 0 then position + tokens.size else position
  if 0 ≤ place ∧ place < tokens.size then .ok place.toNat else .error .noSuchItem

/-- The tokens from `position` on, in the same container. -/
def drop : Sequence α → Int → Sequence α
  | text chars, position => text (Slice.drop chars position)
  | list items, position => list (Slice.drop items position)
  | tuple items, position => tuple (Slice.drop items position)

/-- The tokens that a slice picks, in the same container. -/
def slice (tokens : Sequence α) (start stop step : Option Int) :
    Except Fault (Sequence α) :=
  (Slice.places tokens.size start stop step).map fun places =>
    match tokens with
    | text chars => text (Slice.pick chars places)
    | list items => list (Slice.pick items places)
    | tuple items => tuple (Slice.pick items places)

end Sequence

end Tokenwise
