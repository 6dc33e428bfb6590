import Tokenwise.Proofs.Grammar.Separated
import Tokenwise.Proofs.Parser.LongestPrefix

/-!
# Tokens with a separator between them

Where the items of a separated list are single tokens, the list is recognised exactly
(`Matcher.separated_tokens_recognised`).  Its tokens are odd in number, those at even places are
items, and those at odd places equal the separator (`Separated`).  The output lists the tokens at
even places (`everyOther`).

The repetition takes an item and a separator at a time, for as long as it finds them
(`Pairs`).  The rest does not begin with such a pair.  If it is a single item, that ends the list.
Otherwise the item behind the repetition fails, or something is left behind it.  Nothing is
asked of the separator: it may be a token that the item would take as well.
-/

namespace Tokenwise

/-- The items at even places. -/
def everyOther {α : Type} : List α → List α
  | [] => []
  | [v] => [v]
  | v :: _ :: more => v :: everyOther more

variable {Op : Type}

/-- Whether tokens at even places pass the test and those at odd places equal the separator,
and the last place is even. -/
structure Separated (test : Value Op → Bool) (sep : Value Op) (tokens : List (Value Op)) :
    Prop where
  odd : tokens.length % 2 = 1
  items : ∀ place v, tokens[2 * place]? = some v → test v = true
  separators : ∀ place v, tokens[2 * place + 1]? = some v → (v == sep) = true

section Pairs

variable {test : Value Op → Bool} {sep v w : Value Op} {tokens items more rest : List (Value Op)}

theorem not_separated_nil : ¬ Separated test sep [] := by
  intro h
  cases h.odd

theorem separated_singleton_iff : Separated test sep [v] ↔ test v = true := by
  constructor
  · intro h
    exact h.items 0 v rfl
  · intro h
    refine ⟨rfl, fun place w hw => ?_, fun place w hw => ?_⟩
    · cases place with
      | zero => exact Option.some.inj hw ▸ h
      | succ place => cases hw
    · cases hw

theorem separated_cons_cons_iff :
    Separated test sep (v :: w :: more)
      ↔ test v = true ∧ (w == sep) = true ∧ Separated test sep more := by
  constructor
  · intro h
    refine ⟨h.items 0 v rfl, h.separators 0 w rfl, ?_, fun place u hu => ?_, fun place u hu => ?_⟩
    · have hodd := h.odd
      simp only [List.length_cons] at hodd
      omega
    · exact h.items (place + 1) u hu
    · exact h.separators (place + 1) u hu
  · rintro ⟨hitem, hsep, h⟩
    refine ⟨?_, fun place u hu => ?_, fun place u hu => ?_⟩
    · have hodd := h.odd
      simp only [List.length_cons]
      omega
    · cases place with
      | zero => exact Option.some.inj hu ▸ hitem
      | succ place => exact h.items place u hu
    · cases place with
      | zero => exact Option.some.inj hu ▸ hsep
      | succ place => exact h.separators place u hu

/-- Whether tokens begin with an item and a separator. -/
def StartsPair (test : Value Op → Bool) (sep : Value Op) (tokens : List (Value Op)) : Prop :=
  ∃ v w more, tokens = v :: w :: more ∧ test v = true ∧ (w == sep) = true

/-- Tokens as the items of pairs with a separator, and the rest, which does not begin with one. -/
inductive Pairs (test : Value Op → Bool) (sep : Value Op) :
    List (Value Op) → List (Value Op) → List (Value Op) → Prop
  | stop {rest : List (Value Op)} (hrest : ¬ StartsPair test sep rest) : Pairs test sep rest [] rest
  | cons {v w : Value Op} {more items rest : List (Value Op)} (hitem : test v = true)
      (hsep : (w == sep) = true) (tail : Pairs test sep more items rest) :
      Pairs test sep (v :: w :: more) (v :: items) rest

namespace Pairs

theorem length_le (h : Pairs test sep tokens items rest) : items.length ≤ tokens.length := by
  induction h with
  | stop hrest => exact Nat.zero_le _
  | cons hitem hsep tail ih =>
      simp only [List.length_cons]
      omega

/-- Tokens are separated if one item is left behind the pairs. -/
theorem separated_iff (h : Pairs test sep tokens items rest) :
    Separated test sep tokens ↔ ∃ v, rest = [v] ∧ test v = true := by
  induction h with
  | @stop rest hrest =>
      match rest, hrest with
      | [], _ => exact ⟨fun h => absurd h not_separated_nil, nofun⟩
      | [v], _ =>
          rw [separated_singleton_iff]
          exact ⟨fun hitem => ⟨v, rfl, hitem⟩, fun ⟨w, hw, hitem⟩ => by cases hw; exact hitem⟩
      | v :: w :: more, hrest =>
          refine ⟨fun h => ?_, nofun⟩
          obtain ⟨hitem, hsep, -⟩ := separated_cons_cons_iff.mp h
          exact absurd ⟨v, w, more, rfl, hitem, hsep⟩ hrest
  | cons hitem hsep tail ih =>
      rw [separated_cons_cons_iff, ← ih]
      exact ⟨fun h => h.2.2, fun h => ⟨hitem, hsep, h⟩⟩

theorem everyOther_eq (h : Pairs test sep tokens items [v]) : everyOther tokens = items ++ [v] := by
  generalize hrest : [v] = rest at h
  induction h with
  | stop _ => rw [← hrest]; rfl
  | cons hitem hsep tail ih => rw [everyOther, ih hrest, List.cons_append]

end Pairs

end Pairs

namespace Parser

section Loop

variable {p : Parser Op} {test : Value Op → Bool} {stream here : Stream (Value Op)}
  {tokens items : List (Value Op)} {context : Context}

/-- An item and a separator are taken together, or the pair fails. -/
theorem TakesOne.takes_pair_or_fails (hp : p.TakesOne test) (sep : Value Op)
    (htokens : stream.toList = .ok tokens) (context : Context) :
    (∃ v w more, tokens = v :: w :: more ∧ test v = true ∧ (w == sep) = true
        ∧ (p.keepLeft (token sep)).Matches stream context v (stream.later 2)
        ∧ (stream.later 2).toList = .ok more)
      ∨ ¬ StartsPair test sep tokens
        ∧ ∃ failure, (p.keepLeft (token sep)).Fails stream context failure := by
  obtain ⟨v, after, rfl, hitem, hfirst, hafter⟩ | ⟨hother, expected, hfails⟩ :=
    hp.takes_or_fails htokens context
  · have htoken : (token sep).TakesOne (· == sep) := takesOne_satisfying _ _ _
    obtain ⟨w, more, rfl, hsep, hsecond, hmore⟩ | ⟨hother, expected, hfails⟩ :=
      htoken.takes_or_fails hafter context.withoutName
    · rw [Stream.later_later] at hsecond hmore
      exact .inl ⟨v, w, more, rfl, hitem, hsep,
        matches_sequence_iff.mpr ⟨v, _, w, hfirst, hsecond, rfl⟩, hmore⟩
    · refine .inr ⟨?_, _, fails_sequence_iff.mpr (.inr ⟨v, _, hfirst, hfails⟩)⟩
      rintro ⟨_, w, more, heq, -, hsep⟩
      cases heq
      exact hother w rfl hsep
  · refine .inr ⟨?_, _, fails_sequence_iff.mpr (.inl hfails)⟩
    rintro ⟨v, w, more, rfl, hitem, -⟩
    exact hother v rfl hitem

/-- The pairs at the start are taken one after another, up to where none begins. -/
theorem TakesOne.exists_progress_pairs (hp : p.TakesOne test) (sep : Value Op)
    (htokens : stream.toList = .ok tokens) (context : Context) :
    ∃ items rest here failure, Pairs test sep tokens items rest
      ∧ (p.keepLeft (token sep)).Progress context stream items here
      ∧ here.toList = .ok rest ∧ (p.keepLeft (token sep)).Fails here context failure := by
  -- a pair is two tokens, so the induction is not on the list but on its length
  induction hlength : tokens.length using Nat.strongRecOn generalizing tokens stream with
  | ind length ih =>
      obtain ⟨v, w, more, rfl, hitem, hsep, hmatches, hmore⟩ | ⟨hstart, failure, hfails⟩ :=
        hp.takes_pair_or_fails sep htokens context
      · have hshorter : more.length < length := by
          rw [← hlength, List.length_cons, List.length_cons]
          omega
        have hmoved : (stream.later 2).position ≠ stream.position := by
          change stream.position + (2 : Nat) ≠ stream.position
          omega
        obtain ⟨items, rest, here, failure, hpairs, hprogress, hrest, hfails⟩ :=
          ih more.length hshorter hmore rfl
        exact ⟨v :: items, rest, here, failure, .cons hitem hsep hpairs,
          .cons hmatches hmoved hprogress, hrest, hfails⟩
      · exact ⟨[], tokens, stream, failure, .stop hstart, .nil stream, htokens, hfails⟩

/-- A repetition that may end at any time is over where its parser fails. -/
theorem matches_repeated_any_of_progress {failure : Failure (Value Op)} {limit : Nat}
    (hprogress : p.Progress context stream items here) (hfails : p.Fails here context failure)
    (hlimit : items.length < limit) :
    (p.repeated .any limit).Matches stream context (.list items) here := by
  have hroom : ∀ high ∈ Bounds.any.atMost, items.length < high :=
    fun high hhigh => absurd hhigh (Option.not_mem_none high)
  have henough : Bounds.any.atLeast ≤ items.length := Nat.zero_le _
  have hexit := Exit.enough hroom hfails henough
  exact repeated_of_progress hprogress hexit fun _ => hlimit

theorem matches_extend {v : Value Op} (h : p.Matches stream context v here) :
    p.extend.Matches stream context (.function (.appendTo v)) here :=
  matches_map_iff.mpr ⟨v, h, rfl⟩

end Loop

section Separated

variable [Operations Op] {item : Parser Op} {sep v : Value Op} {limit : Nat}
  {stream here finish : Stream (Value Op)} {context : Context} {items : List (Value Op)}

/-- The item behind the repetition is appended to those in front. -/
theorem matches_separated
    (hloop : ((item.keepLeft (token sep)).repeated .any limit).Matches stream context (.list items)
      here)
    (hlast : item.Matches here context.withoutName v finish) :
    (item.separated sep limit).Matches stream context (.list (items ++ [v])) finish :=
  matches_sequence_iff.mpr ⟨_, here, v, matches_extend hloop, hlast, rfl⟩

theorem fails_separated {failure : Failure (Value Op)}
    (hloop : ((item.keepLeft (token sep)).repeated .any limit).Matches stream context (.list items)
      here)
    (hlast : item.Fails here context.withoutName failure) :
    (item.separated sep limit).Fails stream context failure :=
  fails_sequence_iff.mpr (.inr ⟨_, here, matches_extend hloop, hlast⟩)

end Separated

end Parser

namespace Matcher

variable [Operations Op]

/-- **Separated tokens are recognised exactly.**  An input that can be gone through and has
`tokens` is parsed as items of a one-token matcher with separators between them if and only if its
tokens at even places are accepted, those at odd places equal the separator, and the last place is
even.  The output is the list of those at even places.  Any other input fails.  Any limit above
the number of tokens will do. -/
theorem separated_tokens_recognised (m : Matcher Op) (sep : Value Op) {input : Source (Value Op)}
    {tokens : List (Value Op)} (htokens : (Stream.mk input 0).toList = .ok tokens) {limit : Nat}
    (hlimit : tokens.length < limit) :
    (Separated m.accepts sep tokens →
        ((m.parser.separated sep limit).parse input).ending
          = .done (.output (.list (everyOther tokens))))
      ∧ (¬ Separated m.accepts sep tokens → ∃ failure,
        ((m.parser.separated sep limit).parse input).ending = .done (.failure failure)) := by
  obtain ⟨size, hsize⟩ := Stream.exists_size_of_toList htokens
  obtain ⟨items, rest, here, _, hpairs, hprogress, hrest, hfails⟩ :=
    m.takesOne.exists_progress_pairs sep htokens {}
  have hloop := Parser.matches_repeated_any_of_progress hprogress hfails
    (Nat.lt_of_le_of_lt hpairs.length_le hlimit)
  rw [hpairs.separated_iff]
  -- what is left behind the pairs decides: an item alone, an item and more, or no item
  obtain ⟨v, more, rfl, hitem, hlast, hmore⟩ | ⟨hother, expected, hlast⟩ :=
    m.takesOne.takes_or_fails hrest {}
  · have hmatches := Parser.matches_separated hloop hlast
    have hend := Stream.isAtEnd_of_toList hmore
    cases more with
    | nil =>
        refine ⟨fun _ => ?_, fun hnot => absurd ⟨v, rfl, hitem⟩ hnot⟩
        rw [hpairs.everyOther_eq]
        exact Parser.parse_of_matches hsize hmatches hend
    | cons w more =>
        exact ⟨nofun, fun _ => ⟨_, Parser.parse_of_matches_part hsize hmatches hend⟩⟩
  · refine ⟨?_, fun _ => ⟨_, Parser.parse_of_fails hsize (Parser.fails_separated hloop hlast)⟩⟩
    rintro ⟨v, rfl, hitem⟩
    exact absurd hitem (hother v rfl)

/-- The separator equals the token at the odd place, and the first item as well.  An item that
does not pass leaves no list. -/
theorem numbers_separated_by_one :
    let input : Source (Value Stock) := .whole (.list [.int 1, .bool true, .int 7])
    let tokens : List (Value Stock) := [.int 1, .bool true, .int 7]
    (Stream.mk input 0).toList = .ok tokens ∧ tokens.length < 4
      ∧ (Separated anyToken.accepts (.int 1) tokens
          ∧ ((anyToken.parser.separated (.int 1) 4).parse input).ending
            = .done (.output (.list [.int 1, .int 7])))
      ∧ ¬ Separated (token (.int 1)).accepts (.int 1) tokens
      ∧ ∃ failure, (((token (.int 1)).parser.separated (.int 1) 4).parse input).ending
          = .done (.failure failure) := by
  intro input tokens
  have htokens : (Stream.mk input 0).toList = .ok tokens := rfl
  have hlimit : tokens.length < 4 := by decide
  have hseparated : Separated anyToken.accepts (.int 1) tokens :=
    separated_cons_cons_iff.mpr ⟨rfl, rfl, separated_singleton_iff.mpr rfl⟩
  have hother : ¬ Separated (token (.int 1)).accepts (.int 1) tokens := by
    intro h
    cases h.items 1 (.int 7) rfl
  obtain ⟨houtput, -⟩ := separated_tokens_recognised anyToken (.int 1) htokens hlimit
  obtain ⟨-, hfails⟩ := separated_tokens_recognised (token (.int 1)) (.int 1) htokens hlimit
  exact ⟨htokens, hlimit, ⟨hseparated, houtput hseparated⟩, hother, hfails hother⟩

end Matcher

end Tokenwise
