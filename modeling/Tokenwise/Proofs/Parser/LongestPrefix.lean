import Tokenwise.Callable.Stock
import Tokenwise.Parser.CharClass
import Tokenwise.Proofs.Choice.OneMatcher
import Tokenwise.Proofs.Parser.Repetition
import Tokenwise.Proofs.Stream.Tokens

/-!
# Repeating a one-token matcher

A one-token matcher takes the next token if that passes a test, and otherwise fails where it
stands, with what it has found (`Parser.TakesOne`).  All matchers of the library are such parsers,
each with a test of its own (`Matcher.takesOne`); the one for letters is a choice between two, but
such a choice is one matcher.

Repeated, it takes tokens for as long as they pass the test and the upper bound allows.  The
tokens that it takes are a chain of matches (`Parser.TakesOne.progress`).  Where the chain ends,
the repetition is at its upper bound, or the matcher fails there and the outputs are enough
(`Parser.TakesOne.exit_of_enough`) or not (`Parser.TakesOne.exists_exit_of_missing`).  So a
repetition takes the longest prefix that passes the test, cut off at the upper bound, and matches
if that is long enough (`Matcher.repeated_takes_longest_prefix`).
-/

namespace Tokenwise

variable {Op : Type}

/-- The greatest count up to `n` that is not above the upper bound. -/
def Bounds.capped (bounds : Bounds) (n : Nat) : Nat := bounds.atMost.elim n (min · n)

namespace Bounds

variable {bounds : Bounds} {n : Nat}

theorem capped_le (bounds : Bounds) (n : Nat) : bounds.capped n ≤ n := by
  rw [capped]
  cases bounds.atMost with
  | none => exact Nat.le_refl n
  | some high => exact Nat.min_le_right high n

/-- The upper bound is reached, or there is room for more and nothing has been cut off. -/
theorem capped_cases (bounds : Bounds) (n : Nat) :
    bounds.atMost = some (bounds.capped n)
      ∨ bounds.capped n = n ∧ ∀ high ∈ bounds.atMost, n < high := by
  rw [capped]
  cases bounds.atMost with
  | none => exact .inr ⟨rfl, fun high hhigh => absurd hhigh (Option.not_mem_none high)⟩
  | some high =>
      by_cases hfull : high ≤ n
      · exact .inl (congrArg some (Nat.min_eq_left hfull).symm)
      · have hroom : n < high := Nat.lt_of_not_le hfull
        refine .inr ⟨Nat.min_eq_right (Nat.le_of_lt hroom), fun other hother => ?_⟩
        rwa [← Option.mem_some.mp hother]

/-- As many items as are counted can be taken. -/
theorem length_take_capped {α : Type} (bounds : Bounds) (test : α → Bool) (items : List α) :
    (items.take (bounds.capped (items.takeWhile test).length)).length
      = bounds.capped (items.takeWhile test).length := by
  have hprefix : (items.takeWhile test).length ≤ items.length :=
    (List.takeWhile_sublist test).length_le
  rw [List.length_take]
  exact Nat.min_eq_left (Nat.le_trans (bounds.capped_le _) hprefix)

end Bounds

/-- The token behind the longest prefix that passes the test does not. -/
theorem filter_getElem?_length_takeWhile {α : Type} (test : α → Bool) (items : List α) :
    (items[(items.takeWhile test).length]?).filter test = none := by
  induction items with
  | nil => rfl
  | cons item items ih =>
      cases htest : test item with
      | true =>
          rw [List.takeWhile_cons_of_pos htest, List.length_cons, List.getElem?_cons_succ]
          exact ih
      | false =>
          have hnot : ¬ test item = true := Bool.eq_false_iff.mp htest
          rw [List.takeWhile_cons_of_neg hnot, List.length_nil, List.getElem?_cons_zero,
            Option.filter_some, if_neg hnot]

namespace Parser

/-- Whether a parser takes the next token if that passes the test, and otherwise fails where it
is applied with what it has found there. -/
structure TakesOne (p : Parser Op) (test : Value Op → Bool) : Prop where
  matches_of : ∀ {stream finish : Stream (Value Op)} {context : Context} {v : Value Op},
    stream.peek = .ok (some v) → test v = true → stream.advance = .ok finish →
      p.Matches stream context v finish
  fails_of : ∀ {stream : Stream (Value Op)} {context : Context} {found : Option (Value Op)},
    stream.peek = .ok found → found.filter test = none →
      ∃ expected, p.Fails stream context
        { expected, actual := found.getD .endOfInput, remainder := stream }

theorem takesOne_satisfying (test : Value Op → Bool) (kind : Descriptor.Kind)
    (labels : List (Value Op)) : (satisfying test kind labels).TakesOne test where
  matches_of := fun hpeek htest hadvance => matches_satisfying_iff.mpr ⟨hpeek, htest, hadvance⟩
  fails_of := fun hpeek hfound =>
    ⟨_, fails_satisfying_iff.mpr ⟨_, hpeek, hfound, rfl⟩⟩

theorem TakesOne.namedIfAbsent {p : Parser Op} {test : Value Op → Bool} (hp : p.TakesOne test)
    (name : String) : (p.namedIfAbsent name).TakesOne test where
  matches_of := fun hpeek htest hadvance => hp.matches_of hpeek htest hadvance
  fails_of := fun hpeek hfound => hp.fails_of hpeek hfound

namespace TakesOne

variable {p : Parser Op} {test : Value Op → Bool} {stream : Stream (Value Op)}
  {tokens : List (Value Op)}

/-- A token that passes the test is taken, and otherwise the matcher fails where it is. -/
theorem takes_or_fails (hp : p.TakesOne test) (htokens : stream.toList = .ok tokens)
    (context : Context) :
    (∃ v more, tokens = v :: more ∧ test v = true
        ∧ p.Matches stream context v (stream.later 1) ∧ (stream.later 1).toList = .ok more)
      ∨ (∀ v ∈ tokens.head?, ¬ test v = true) ∧ ∃ expected, p.Fails stream context
          { expected, actual := tokens.head?.getD .endOfInput, remainder := stream } := by
  obtain ⟨rfl, hpeek⟩ | ⟨v, more, rfl, hpeek, hadvance, hmore⟩ := Stream.toList_cases htokens
  · exact .inr ⟨nofun, hp.fails_of hpeek rfl⟩
  · by_cases htest : test v = true
    · exact .inl ⟨v, more, rfl, htest, hp.matches_of hpeek htest hadvance, hmore⟩
    · have hfound : (some v).filter test = none := by rw [Option.filter_some, if_neg htest]
      refine .inr ⟨fun w hw => ?_, hp.fails_of hpeek hfound⟩
      rwa [← Option.mem_some.mp hw]

/-- Tokens that pass the test are taken one by one. -/
theorem progress (hp : p.TakesOne test) (htokens : stream.toList = .ok tokens)
    (context : Context) {count : Nat} (hcount : count ≤ (tokens.takeWhile test).length) :
    p.Progress context stream (tokens.take count) (stream.later count) := by
  induction count generalizing stream tokens with
  | zero =>
      rw [List.take_zero, Stream.later_zero]
      exact .nil stream
  | succ count ih =>
      obtain ⟨rfl, -⟩ | ⟨v, more, rfl, hpeek, hadvance, hmore⟩ := Stream.toList_cases htokens
      · cases hcount
      · cases htest : test v with
        | false =>
            rw [List.takeWhile_cons_of_neg (Bool.eq_false_iff.mp htest)] at hcount
            cases hcount
        | true =>
            rw [List.takeWhile_cons_of_pos htest, List.length_cons] at hcount
            have hmoved : (stream.later 1).position ≠ stream.position := by
              change stream.position + (1 : Nat) ≠ stream.position
              omega
            have htail := ih hmore (Nat.le_of_succ_le_succ hcount)
            rw [Stream.later_later, Nat.add_comm] at htail
            exact .cons (hp.matches_of hpeek htest hadvance) hmoved htail

/-- Behind the longest prefix that passes the test, the matcher fails with the token there. -/
theorem exists_fails_later (hp : p.TakesOne test) (htokens : stream.toList = .ok tokens)
    (context : Context) {count : Nat} (hcount : count = (tokens.takeWhile test).length) :
    ∃ expected, p.Fails (stream.later count) context
      { expected, actual := (tokens[count]?).getD .endOfInput,
        remainder := stream.later count } := by
  have hlength : count ≤ tokens.length := by
    rw [hcount]
    exact (List.takeWhile_sublist test).length_le
  have hpeek : (stream.later count).peek = .ok tokens[count]? := by
    rw [Stream.peek_of_toList (Stream.toList_later htokens hlength), List.head?_drop]
  refine hp.fails_of hpeek ?_
  rw [hcount]
  exact filter_getElem?_length_takeWhile test tokens

section Repetition

variable {bounds : Bounds} {count limit : Nat}

/-- Long enough, the tokens that are taken lead to an exit with them. -/
theorem exit_of_enough (hp : p.TakesOne test) (htokens : stream.toList = .ok tokens)
    (context : Context) (hcount : count = bounds.capped (tokens.takeWhile test).length)
    (henough : bounds.atLeast ≤ count) :
    p.Exit context bounds.atLeast bounds.atMost (tokens.take count) (stream.later count)
      (.success (tokens.take count) (stream.later count)) := by
  have hlength : (tokens.take count).length = count := hcount ▸ bounds.length_take_capped test tokens
  obtain hfull | ⟨hall, hroom⟩ := bounds.capped_cases (tokens.takeWhile test).length
  · refine .full ?_
    rw [hlength, hcount, hfull]
  · have hbehind : count = (tokens.takeWhile test).length := hcount.trans hall
    obtain ⟨expected, hfails⟩ := hp.exists_fails_later htokens context hbehind
    refine .enough ?_ hfails (by rwa [hlength])
    rwa [hlength, hbehind]

/-- Too few tokens lead to an exit with the failure behind them. -/
theorem exists_exit_of_missing (hp : p.TakesOne test) (htokens : stream.toList = .ok tokens)
    (context : Context) (hcount : count = bounds.capped (tokens.takeWhile test).length)
    (hmissing : count < bounds.atLeast) :
    ∃ expected, p.Exit context bounds.atLeast bounds.atMost (tokens.take count)
      (stream.later count) (.failure { expected, actual := (tokens[count]?).getD .endOfInput,
                                       remainder := stream.later count }) := by
  have hlength : (tokens.take count).length = count := hcount ▸ bounds.length_take_capped test tokens
  obtain hfull | ⟨hall, hroom⟩ := bounds.capped_cases (tokens.takeWhile test).length
  · -- at its upper bound a repetition misses nothing
    have hleast : bounds.atLeast ≤ count := hcount ▸ bounds.nonempty _ hfull
    exact absurd hmissing (Nat.not_lt_of_le hleast)
  · have hbehind : count = (tokens.takeWhile test).length := hcount.trans hall
    obtain ⟨expected, hfails⟩ := hp.exists_fails_later htokens context hbehind
    refine ⟨expected, .missing ?_ hfails (by rwa [hlength])⟩
    rwa [hlength, hbehind]

/-- A repetition of a matcher is done with the exit that the tokens it takes lead to. -/
theorem repeated_of_exit (hp : p.TakesOne test) (htokens : stream.toList = .ok tokens)
    {context : Context} (hcount : count = bounds.capped (tokens.takeWhile test).length)
    (hlimit : bounds.atMost = none → tokens.length < limit) {verdict : Reply Op (List (Value Op))}
    (hexit : p.Exit context bounds.atLeast bounds.atMost (tokens.take count) (stream.later count)
      verdict) :
    ((p.repeated bounds limit).run stream context).ending = .done (verdict.mapOutput .list) := by
  have hprogress : p.Progress context stream (tokens.take count) (stream.later count) :=
    hp.progress htokens context (hcount ▸ bounds.capped_le _)
  refine repeated_of_progress hprogress hexit fun hunbounded => ?_
  exact Nat.lt_of_le_of_lt (List.take_sublist count tokens).length_le (hlimit hunbounded)

theorem matches_repeated (hp : p.TakesOne test) (htokens : stream.toList = .ok tokens)
    (context : Context) (hcount : count = bounds.capped (tokens.takeWhile test).length)
    (hlimit : bounds.atMost = none → tokens.length < limit) (henough : bounds.atLeast ≤ count) :
    (p.repeated bounds limit).Matches stream context (.list (tokens.take count))
      (stream.later count) :=
  hp.repeated_of_exit htokens hcount hlimit (hp.exit_of_enough htokens context hcount henough)

theorem exists_fails_repeated (hp : p.TakesOne test) (htokens : stream.toList = .ok tokens)
    (context : Context) (hcount : count = bounds.capped (tokens.takeWhile test).length)
    (hlimit : bounds.atMost = none → tokens.length < limit) (hmissing : count < bounds.atLeast) :
    ∃ expected, (p.repeated bounds limit).Fails stream context
      { expected, actual := (tokens[count]?).getD .endOfInput,
        remainder := stream.later count } := by
  obtain ⟨expected, hexit⟩ := hp.exists_exit_of_missing htokens context hcount hmissing
  exact ⟨expected, hp.repeated_of_exit htokens hcount hlimit hexit⟩

end Repetition

end TakesOne

end Parser

/-- The parsers that look at one token. -/
inductive Matcher (Op : Type) where
  | token (expected : Value Op)
  | notToken (unexpected : Value Op)
  | oneOf (choices : List (Value Op))
  | noneOf (excluded : List (Value Op))
  | letter
  | digit
  | whitespace
  | anyToken

namespace Matcher

/-- The parser that the matcher is. -/
def parser : Matcher Op → Parser Op
  | token expected => .token expected
  | notToken unexpected => .notToken unexpected
  | oneOf choices => .oneOf choices
  | noneOf excluded => .noneOf excluded
  | letter => .letter
  | digit => .digit
  | whitespace => .whitespace
  | anyToken => .anyToken

/-- Whether a token is one that the matcher takes. -/
def accepts : Matcher Op → Value Op → Bool
  | token expected => (· == expected)
  | notToken unexpected => (· != unexpected)
  | oneOf choices => choices.contains
  | noneOf excluded => (!excluded.contains ·)
  | letter => (Parser.tokensOf CharClass.lowercase ++ Parser.tokensOf CharClass.uppercase).contains
  | digit => (Parser.tokensOf CharClass.digits).contains
  | whitespace => (Parser.tokensOf CharClass.whitespace).contains
  | anyToken => fun _ => true

theorem takesOne (m : Matcher Op) : m.parser.TakesOne m.accepts := by
  cases m with
  | token expected => exact Parser.takesOne_satisfying _ _ _
  | notToken unexpected => exact Parser.takesOne_satisfying _ _ _
  | oneOf choices => exact Parser.takesOne_satisfying _ _ _
  | noneOf excluded => exact Parser.takesOne_satisfying _ _ _
  | letter =>
      rw [parser, Parser.letter, Parser.orElse_oneOf]
      exact (Parser.takesOne_satisfying _ _ _).namedIfAbsent _
  | digit => exact (Parser.takesOne_satisfying _ _ _).namedIfAbsent _
  | whitespace => exact (Parser.takesOne_satisfying _ _ _).namedIfAbsent _
  | anyToken => exact Parser.takesOne_satisfying _ _ _

/-- **A repeated matcher takes the longest prefix.**  On a stream that can be gone through, as
one within its source can (`Stream.Within.toList_eq`), and has `tokens` left, let `count` be the
length of the longest prefix of them that a one-token matcher accepts, or the upper bound of the
repetition if that is smaller.  If `count` is not below the lower bound, the repetition matches,
with the first `count` tokens as they are found, and leaves the rest.  Otherwise it fails behind
them, with the token there, or the end of the input.  Without an upper bound any limit above the
number of tokens will do.  White space may be absent, so it is always matched. -/
theorem repeated_takes_longest_prefix (m : Matcher Op) (bounds : Bounds)
    {stream : Stream (Value Op)} {tokens : List (Value Op)} (htokens : stream.toList = .ok tokens)
    (context : Context) {limit : Nat} (hlimit : bounds.atMost = none → tokens.length < limit) :
    let count := bounds.capped (tokens.takeWhile m.accepts).length
    let blanks := (tokens.takeWhile whitespace.accepts).length
    (bounds.atLeast ≤ count →
        (m.parser.repeated bounds limit).Matches stream context (.list (tokens.take count))
          (stream.later count))
      ∧ (count < bounds.atLeast →
        ∃ expected, (m.parser.repeated bounds limit).Fails stream context
          { expected, actual := (tokens[count]?).getD .endOfInput,
            remainder := stream.later count })
      ∧ (tokens.length < limit →
        (Parser.whitespaces limit).Matches stream context (.list (tokens.take blanks))
          (stream.later blanks)) := by
  refine ⟨?_, ?_, fun hroom => ?_⟩
  · exact m.takesOne.matches_repeated htokens context rfl hlimit
  · exact m.takesOne.exists_fails_repeated htokens context rfl hlimit
  · have hunbounded : Bounds.any.atMost = none → tokens.length < limit := fun _ => hroom
    exact whitespace.takesOne.matches_repeated htokens context rfl hunbounded (Nat.zero_le _)

/-- Two of three letters are taken, and where three are asked for the digit behind them is in the
way. -/
theorem letters_before_digit :
    let stream : Stream (Value Stock) := ⟨.whole (.text ['-', 'a', 'B', '7', 'c']), 1⟩
    let tokens : List (Value Stock) := [.char 'a', .char 'B', .char '7', .char 'c']
    let atLeastThree : Bounds := ⟨3, none, nofun⟩
    stream.toList = .ok tokens ∧ tokens.length < 5
      ∧ (letter.parser.repeated .any 5).Matches stream {} (.list [.char 'a', .char 'B'])
          ⟨stream.source, 3⟩
      ∧ (∃ expected, (letter.parser.repeated atLeastThree 5).Fails stream {}
          { expected, actual := .char '7', remainder := ⟨stream.source, 3⟩ })
      ∧ (Parser.whitespaces 5).Matches stream {} (.list []) stream := by
  intro stream tokens atLeastThree
  have htokens : stream.toList = .ok tokens := rfl
  have hlimit : tokens.length < 5 := by decide
  obtain ⟨hmatches, -, hblanks⟩ :=
    repeated_takes_longest_prefix letter .any htokens {} fun _ => hlimit
  obtain ⟨-, hfails, -⟩ :=
    repeated_takes_longest_prefix letter atLeastThree htokens {} fun _ => hlimit
  exact ⟨htokens, hlimit, hmatches (Nat.zero_le _), hfails (by decide), hblanks hlimit⟩

end Matcher

end Tokenwise
