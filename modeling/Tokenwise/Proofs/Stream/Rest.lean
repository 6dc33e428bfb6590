import Tokenwise.Callable.Stock
import Tokenwise.Proofs.Stream.Tokens

/-!
# A stream and its rest

A stream and the plain sequence of its remaining tokens, `Stream.rest`, are two readings of one
thing.  The stream counts from its position, asks its source, and its source may be a view that
counts from another position.  The rest is cut out of the source, level by level, and counts from
its own start.

Either way the tokens are those of `Stream.tokens` (`Stream.Within.toList_rest`), so that the
length, the next token and the end are read off the rest as well.  Two more things are to be
shown.  Indices may be negative and then count from the end, on every level alike: reading at an
index depends on the list of tokens only, and only the fault of an index outside tells a view from
a plain sequence (`Source.Within.get_of_place`, `Source.Within.get_of_outside`).  And advancing
stops at the end, as cutting does (`Sequence.slice_from`, `Stream.Within.rest_later`).
-/

namespace Tokenwise

namespace Slice

variable {β : Type} {items : List β}

theorem drop_natCast (items : List β) (amount : Nat) : drop items amount = items.drop amount := by
  rcases Nat.le_total amount items.length with hle | hle
  · exact drop_of_inside (Int.natCast_nonneg amount) (Int.ofNat_le.mpr hle)
  · rw [drop_of_past (Int.ofNat_le.mpr hle), List.drop_eq_nil_of_le hle]

/-- What is dropped from what is left is dropped at once, and never more than there is. -/
theorem drop_drop {position : Int} (hstart : 0 ≤ position) (hend : position ≤ items.length)
    (amount : Nat) :
    drop (drop items position) amount
      = drop items (position + (min amount (items.length - position.toNat) : Nat)) := by
  rw [drop_natCast, drop_of_inside hstart hend, List.drop_drop,
    drop_of_inside (by omega) (by omega)]
  exact List.drop_eq_drop_iff.mpr (by omega)

/-- One place after another, up to the end, picks what dropping leaves. -/
theorem pick_progression {first count : Nat} (h : first + count = items.length) :
    pick items (progression first 1 count) = items.drop first := by
  induction count generalizing first with
  | zero =>
      rw [List.drop_eq_nil_of_le (by omega)]
      rfl
  | succ count ih =>
      have hfirst : first < items.length := by omega
      have hnext : (first : Int) + 1 = (first + 1 : Nat) := by omega
      rw [progression, hnext, pick, Int.toNat_natCast,
        List.filterMap_cons_some (List.getElem?_eq_getElem hfirst),
        List.drop_eq_getElem_cons hfirst]
      exact congrArg (items[first] :: ·) (ih (by omega))

/-- From a bound on, a slice goes through the places up to the end. -/
theorem places_from (size amount : Nat) :
    places size (some amount) none none
      = .ok (progression (min amount size : Nat) 1 (size - min amount size)) := by
  have hfirst : place size 0 size amount = (min amount size : Nat) := by
    rw [place, if_neg (by omega)]
    omega
  have hcount : (((size : Int) - (min amount size : Nat) + 1 - 1) / 1).toNat
      = size - min amount size := by omega
  simp only [places, Option.getD_none, Option.map_some, Option.getD_some, Option.map_none]
  rw [if_neg (by decide), if_pos (by decide), hfirst, hcount]

theorem pick_from (items : List β) (amount : Nat) :
    pick items (progression (min amount items.length : Nat) 1
      (items.length - min amount items.length)) = drop items amount := by
  rw [pick_progression (by omega), drop_natCast]
  exact List.drop_eq_drop_iff.mpr (by omega)

end Slice

namespace Sequence

variable {α : Type}

/-- The slice from a bound on is what is left after dropping. -/
theorem slice_from (tokens : Sequence α) (amount : Nat) :
    tokens.slice (some amount) none none = .ok (tokens.drop amount) := by
  rw [slice, Slice.places_from]
  refine congrArg Except.ok ?_
  cases tokens with
  | text chars => exact congrArg text (Slice.pick_from chars amount)
  | list items => exact congrArg list (Slice.pick_from items amount)
  | tuple items => exact congrArg tuple (Slice.pick_from items amount)

theorem drop_drop {tokens : Sequence α} {position : Int} (hstart : 0 ≤ position)
    (hend : position ≤ tokens.size) (amount : Nat) :
    (tokens.drop position).drop amount
      = tokens.drop (position + (min amount (tokens.size - position.toNat) : Nat)) := by
  cases tokens with
  | text chars => exact congrArg text (Slice.drop_drop hstart hend amount)
  | list items => exact congrArg list (Slice.drop_drop hstart hend amount)
  | tuple items => exact congrArg tuple (Slice.drop_drop hstart hend amount)

end Sequence

namespace Source

variable {α : Type}

/-- The plain sequence that a source stands for. -/
def plain : Source α → Sequence α
  | whole tokens => tokens
  | view source position => source.drop position

theorem drop_eq_plain_drop (source : Source α) (position : Int) :
    source.drop position = source.plain.drop position := by
  cases source <;> rfl

/-- The place that an index stands for among `count` tokens: a negative one counts from the end. -/
def place (count : Nat) (index : Int) : Int := if index < 0 then index + count else index

theorem locate_whole (items : Sequence α) (index : Int) :
    (whole items).locate index
      = if 0 ≤ place items.size index ∧ place items.size index < items.size then
          .ok (place items.size index).toNat
        else .error .noSuchItem := rfl

/-- The fault of asking for a token that a source does not have. -/
def refusal : Source α → Fault
  | whole _ => .noSuchItem
  | view _ _ => .outOfRange

variable [Token α]

/-- A source within its own sources has the tokens of the plain sequence. -/
theorem Within.toList_plain {source : Source α} (h : source.Within) :
    source.plain.toList = source.tokens := by
  induction source with
  | whole items => rfl
  | view source position ih =>
      obtain ⟨hwithin, hstart, hend⟩ := within_view_iff.mp h
      rw [plain, drop_eq_plain_drop, Sequence.toList_drop, ih hwithin,
        Slice.drop_of_inside hstart hend]
      rfl

theorem Within.locate_view {source : Source α} {position : Int}
    (h : (view source position).Within) (index : Int) :
    let count := (view source position).tokens.length
    (view source position).locate index
      = if 0 ≤ place count index ∧ place count index < count then
          source.locate (position + place count index)
        else .error .outOfRange := by
  intro count
  rw [locate, h.size_eq]
  rfl

section Index

variable {source : Source α} {index : Int}

/-- What is looked for at an index is looked for at its place. -/
theorem Within.locate_place (h : source.Within) (hstart : 0 ≤ place source.tokens.length index) :
    source.locate index = source.locate (place source.tokens.length index) := by
  have hagain : place source.tokens.length (place source.tokens.length index)
      = place source.tokens.length index := if_neg (by omega)
  cases source with
  | whole items =>
      rw [tokens, Sequence.length_toList] at hagain ⊢
      rw [locate_whole, locate_whole, hagain]
  | view source position => rw [h.locate_view, h.locate_view, hagain]

/-- An index gives the token at its place, on every level alike. -/
theorem Within.get_of_place (h : source.Within) {position : Nat} {token : α}
    (hplace : place source.tokens.length index = position)
    (htoken : source.tokens[position]? = some token) : source.get index = .ok token := by
  obtain ⟨hposition, rfl⟩ := List.getElem?_eq_some_iff.mp htoken
  rw [get, h.locate_place (by omega), hplace]
  exact h.get_eq hposition

/-- An index without a place among the tokens is refused. -/
theorem Within.get_of_outside (h : source.Within)
    (houtside : ¬ (0 ≤ place source.tokens.length index
      ∧ place source.tokens.length index < source.tokens.length)) :
    source.get index = .error source.refusal := by
  have hlocate : source.locate index = .error source.refusal := by
    cases source with
    | whole items =>
        rw [tokens, Sequence.length_toList] at houtside
        rw [locate_whole, if_neg houtside]
        rfl
    | view source position =>
        rw [h.locate_view, if_neg houtside]
        rfl
  rw [get, hlocate]
  rfl

/-- **Two sources with the same tokens are read alike**, at every index, but for the fault of
asking for what they do not have. -/
theorem Within.get_alike {other : Source α} (h : source.Within) (hother : other.Within)
    (htokens : source.tokens = other.tokens) (index : Int) :
    (∃ token, source.get index = .ok token ∧ other.get index = .ok token)
      ∨ source.get index = .error source.refusal ∧ other.get index = .error other.refusal := by
  by_cases hinside : 0 ≤ place source.tokens.length index
      ∧ place source.tokens.length index < source.tokens.length
  · obtain ⟨position, hposition⟩ := Int.eq_ofNat_of_zero_le hinside.1
    have hlt : position < source.tokens.length := by omega
    have htoken : source.tokens[position]? = some source.tokens[position] :=
      List.getElem?_eq_getElem hlt
    exact .inl ⟨_, h.get_of_place hposition htoken,
      hother.get_of_place (htokens ▸ hposition) (htokens ▸ htoken)⟩
  · exact .inr ⟨h.get_of_outside hinside, hother.get_of_outside (htokens ▸ hinside)⟩

end Index

end Source

namespace Stream

variable {α : Type} [Token α] {stream : Stream α}

/-- A stream within its source has the tokens of its rest. -/
theorem Within.toList_rest (h : stream.Within) : stream.rest.toList = stream.tokens :=
  Source.Within.toList_plain h

theorem Within.size_rest (h : stream.Within) : stream.rest.size = stream.tokens.length := by
  rw [← Sequence.length_toList, h.toList_rest]

/-- What is left later, but no later than at the end, is what is left after dropping. -/
theorem Within.rest_later (h : stream.Within) (amount : Nat) :
    (stream.later (min amount stream.tokens.length)).rest = stream.rest.drop amount := by
  obtain ⟨hsource, hstart, hend⟩ := within_iff.mp h
  have hlength := length_tokens h
  have hsize : stream.source.plain.size = stream.source.tokens.length := by
    rw [← Sequence.length_toList, hsource.toList_plain]
  have hleft : stream.source.plain.size - stream.position.toNat = stream.tokens.length := by omega
  rw [rest, rest, Source.drop_eq_plain_drop, Source.drop_eq_plain_drop,
    Sequence.drop_drop hstart (by omega), hleft]
  rfl

/-- Advancing twice is advancing by both amounts at once. -/
theorem Within.advance_later (h : stream.Within) (first second : Nat) :
    (stream.later (min first stream.tokens.length)).advance second
      = stream.advance (first + second) := by
  have hlater : (stream.later (min first stream.tokens.length)).Within :=
    h.later (Nat.min_le_right _ _)
  have hamount : min first stream.tokens.length
      + min second (stream.tokens.length - min first stream.tokens.length)
        = min (first + second) stream.tokens.length := by omega
  rw [hlater.advance_eq, tokens_later h, List.length_drop, later_later, hamount]
  exact (h.advance_eq (first + second)).symm

/-- **A stream is a faithful view of its rest.**  Take a stream over a text, a list, a tuple, or
another stream, to any depth, that at every level begins at a position of its source or at the end
of it.  It is as long as its rest, going through it gives the items of the rest in order, and at
every index, counted from the start or from the end, both have the same token or both have none.
Its next token is the first item of the rest; there is none just when the rest is empty, and just
then the stream is at its end.  Advancing leaves the slice of the rest from there on, and
advancing twice is advancing by both amounts. -/
theorem Within.views_rest (h : stream.Within) :
    stream.size = .ok stream.rest.size
      ∧ stream.toList = .ok stream.rest.toList
      ∧ (∀ index : Int,
          (∃ token, stream.get index = .ok token
            ∧ (Source.whole stream.rest).get index = .ok token)
          ∨ stream.get index = .error .outOfRange
            ∧ (Source.whole stream.rest).get index = .error .noSuchItem)
      ∧ stream.peek = .ok stream.rest.toList.head?
      ∧ stream.isAtEnd = .ok stream.rest.toList.isEmpty
      ∧ ∀ first second : Nat, ∃ further, stream.advance first = .ok further
          ∧ stream.rest.slice (some first) none none = .ok further.rest
          ∧ further.advance second = stream.advance (first + second) := by
  refine ⟨?_, ?_, ?_, ?_, ?_, ?_⟩
  · rw [h.size_rest]
    exact Source.Within.size_eq h
  · rw [h.toList_rest, h.toList_eq]
  · have hrest : (Source.whole stream.rest).Within := trivial
    exact Source.Within.get_alike h hrest h.toList_rest.symm
  · rw [h.toList_rest, h.peek_eq]
  · rw [h.toList_rest, h.isAtEnd_eq]
  · intro first second
    refine ⟨_, h.advance_eq first, ?_, h.advance_later first second⟩
    rw [Sequence.slice_from, h.rest_later]

/-- A view of a view has its last tokens left, also when it is asked to go past the end. -/
theorem view_of_view_views_rest :
    let stream : Stream (Value Stock) := ⟨.view (.whole (.text ['a', 'b', 'c', 'd'])) 1, 1⟩
    stream.Within ∧ stream.rest = .text ['c', 'd'] ∧ stream.peek = .ok (some (.char 'c'))
      ∧ ∃ further, stream.advance 1 = .ok further ∧ further.rest = .text ['d']
        ∧ further.advance 2 = stream.advance 3 := by
  intro stream
  have hwithin : stream.Within :=
    ⟨⟨trivial, by decide, 4, rfl, by decide⟩, by decide, 3, rfl, by decide⟩
  obtain ⟨-, -, -, hpeek, -, hadvance⟩ := hwithin.views_rest
  obtain ⟨further, hfurther, hrest, hagain⟩ := hadvance 1 2
  rw [Sequence.slice_from] at hrest
  exact ⟨hwithin, rfl, hpeek, further, hfurther, (Except.ok.inj hrest).symm, hagain⟩

end Stream

end Tokenwise
