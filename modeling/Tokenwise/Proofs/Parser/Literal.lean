import Tokenwise.Proofs.Parser.LongestPrefix

/-!
# Where a literal stops

A literal is compared with the tokens character by character.  How far it comes is the number of
its characters that the tokens begin with, one by one (`commonLength`).  If these are all of them,
it matches.  Otherwise it fails at the first token that is another one, or at the end of the
input, and reports the whole text as expected.

Its characters can also be matched one after another, each by a matcher of its own
(`Parser.inOrder`).  The two come to the same place and find the same there, though what they
expected is not the same (`Parser.literal_stops_behind_common_start`).  Each side has its own loop,
and its own induction on the characters that are left.
-/

namespace Tokenwise

variable {Op : Type}

/-- How many of the characters, from the first one on, the tokens begin with. -/
def commonLength (chars : List Char) (tokens : List (Value Op)) : Nat :=
  ((chars.zip tokens).takeWhile fun pair => pair.2 == .char pair.1).length

section CommonLength

variable {c : Char} {v : Value Op} {tokens : List (Value Op)}

theorem commonLength_cons_cons (h : (v == .char c) = true) (chars : List Char) :
    commonLength (c :: chars) (v :: tokens) = commonLength chars tokens + 1 := by
  simp only [commonLength, List.zip_cons_cons, List.takeWhile_cons, h, if_true, List.length_cons]

theorem commonLength_cons_of_other (h : ∀ v ∈ tokens.head?, ¬ (v == .char c) = true)
    (chars : List Char) : commonLength (c :: chars) tokens = 0 := by
  cases tokens with
  | nil => rfl
  | cons w more =>
      have hother : ¬ (w == .char c) = true := h w rfl
      simp [commonLength, hother]

end CommonLength

namespace Parser

variable {s : String} {stream : Stream (Value Op)} {tokens : List (Value Op)} {context : Context}

/-- The matcher of a character takes the tokens that equal it. -/
theorem takesOne_char (c : Char) : (token (.char c : Value Op)).TakesOne (· == .char c) :=
  takesOne_satisfying _ _ _

/-- A literal stops behind the characters that agree with the tokens, if it can be advanced up
to their end. -/
theorem literalFrom_ending {start : Stream (Value Op)} (htokens : stream.toList = .ok tokens)
    (offset : Nat) (hadvance : ∀ n ≤ tokens.length,
      start.advance (offset + n : Nat) = .ok (stream.later n)) (chars : List Char) :
    let count := commonLength chars tokens
    (literalFrom s start context offset chars).ending
      = .done (if count = chars.length then .success (.text s) (stream.later count)
          else .failure (mismatch .oneOf [.text s] context tokens[count]? (stream.later count))) := by
  induction chars generalizing stream tokens offset with
  | nil =>
      rw [literalFrom, Run.ending_bind_eq_done]
      exact ⟨_, Run.liftM_ending_eq_done.mpr (hadvance 0 (Nat.zero_le _)), rfl⟩
  | cons c chars ih =>
      have hhere : start.advance offset = .ok stream := by
        simpa using hadvance 0 (Nat.zero_le _)
      have hpeek := Stream.peek_of_toList htokens
      simp only [literalFrom, Run.ending_bind_eq_done, Run.liftM_ending_eq_done]
      refine ⟨_, hhere, _, hpeek, ?_⟩
      obtain ⟨v, more, rfl, hsame, -, hmore⟩ | ⟨hother, -⟩ :=
        (takesOne_char c).takes_or_fails htokens context
      · -- every character is looked up from the start, so the offset takes up the step
        have hnext : ∀ n ≤ more.length,
            start.advance (offset + 1 + n : Nat) = .ok ((stream.later 1).later n) := by
          intro n hn
          rw [Stream.later_later, Nat.add_assoc]
          exact hadvance (1 + n) (by rw [List.length_cons]; omega)
        have hloop := ih hmore (offset + 1) hnext
        simp only [Stream.later_later, Nat.add_comm 1] at hloop
        rw [List.head?_cons, Option.any_some, if_pos hsame, hloop, commonLength_cons_cons hsame,
          List.length_cons, List.getElem?_cons_succ]
        simp only [Nat.add_right_cancel_iff]
      · have hstop : tokens.head?.any (· == .char c) = false := by
          cases tokens with
          | nil => rfl
          | cons v more => exact Bool.eq_false_iff.mpr (hother v rfl)
        rw [hstop, commonLength_cons_of_other hother]
        simp [List.head?_eq_getElem?, Run.pure_def]

/-- The characters one after another, each matched as a token.  The last one is kept. -/
def inOrder (first : Char) (more : List Char) : Parser Op :=
  more.foldl (fun p c => p.keepRight (token (.char c))) (token (.char first))

/-- Whether a parser goes on from `stream` as far as the characters agree with the tokens there:
it matches if that is all of them, and otherwise fails with what it has found. -/
def Follows (p : Parser Op) (start : Stream (Value Op)) (context : Context)
    (stream : Stream (Value Op)) (chars : List Char) (tokens : List (Value Op)) : Prop :=
  let count := commonLength chars tokens
  (count = chars.length → ∃ v, p.Matches start context v (stream.later count))
    ∧ (count ≠ chars.length → ∃ expected, p.Fails start context
        { expected, actual := tokens[count]?.getD .endOfInput, remainder := stream.later count })

section InOrder

variable {p : Parser Op} {start : Stream (Value Op)} {c : Char} {v : Value Op} {chars : List Char}

theorem Follows.cons (hsame : (v == .char c) = true)
    (h : p.Follows start context (stream.later 1) chars tokens) :
    p.Follows start context stream (c :: chars) (v :: tokens) := by
  simp only [Follows, Stream.later_later, Nat.add_comm 1] at h
  simp only [Follows, commonLength_cons_cons hsame, List.length_cons, List.getElem?_cons_succ,
    ne_eq, Nat.add_right_cancel_iff]
  exact h

theorem follows_of_fails (hother : ∀ v ∈ tokens.head?, ¬ (v == .char c) = true)
    {expected : Expected (Value Op)} (h : p.Fails start context
      { expected, actual := tokens.head?.getD .endOfInput, remainder := stream }) :
    p.Follows start context stream (c :: chars) tokens := by
  simp only [Follows, commonLength_cons_of_other hother, Stream.later_zero,
    ← List.head?_eq_getElem?]
  exact ⟨fun hall => absurd hall (Nat.succ_ne_zero _).symm, fun _ => ⟨expected, h⟩⟩

/-- A chain of sequences fails as its first parser does. -/
theorem foldl_keepRight_of_fails {failure : Failure (Value Op)} (h : p.Fails start context failure)
    (chars : List Char) :
    (chars.foldl (fun p c => p.keepRight (token (.char c))) p).Fails start context failure := by
  induction chars generalizing p with
  | nil => exact h
  | cons c chars ih => exact ih (fails_sequence_iff.mpr (.inl h))

/-- Behind a match, a chain of characters goes on as far as they agree with the tokens. -/
theorem foldl_keepRight_follows (hp : p.Matches start context v stream)
    (htokens : stream.toList = .ok tokens) (chars : List Char) :
    (chars.foldl (fun p c => p.keepRight (token (.char c))) p).Follows start context stream
      chars tokens := by
  induction chars generalizing p stream tokens v with
  | nil =>
      refine ⟨fun _ => ⟨v, ?_⟩, fun hother => absurd rfl hother⟩
      exact (Stream.later_zero stream).symm ▸ hp
  | cons c chars ih =>
      obtain ⟨w, more, rfl, hsame, htoken, hmore⟩ | ⟨hother, expected, hfails⟩ :=
        (takesOne_char c).takes_or_fails htokens context.withoutName
      · have hnext : (p.keepRight (token (.char c))).Matches start context w (stream.later 1) :=
          matches_sequence_iff.mpr ⟨v, stream, w, hp, htoken, rfl⟩
        exact (ih hnext hmore).cons hsame
      · have hnext : (p.keepRight (token (.char c))).Fails start context
            { expected, actual := tokens.head?.getD .endOfInput, remainder := stream } :=
          fails_sequence_iff.mpr (.inr ⟨v, stream, hp, hfails⟩)
        exact follows_of_fails hother (foldl_keepRight_of_fails hnext chars)

theorem inOrder_follows (htokens : stream.toList = .ok tokens) (context : Context) (first : Char)
    (more : List Char) :
    (inOrder first more).Follows stream context stream (first :: more) tokens := by
  obtain ⟨v, rest, rfl, hsame, htoken, hrest⟩ | ⟨hother, expected, hfails⟩ :=
    (takesOne_char first).takes_or_fails htokens context
  · exact (foldl_keepRight_follows htoken hrest more).cons hsame
  · exact follows_of_fails hother (foldl_keepRight_of_fails hfails more)

end InOrder

theorem mismatch_single (s : String) (context : Context) (found : Option (Value Op))
    (remainder : Stream (Value Op)) :
    mismatch .oneOf [.text s] context found remainder
      = { expected := .described ⟨.oneOf, [.text (context.name.getD s)]⟩,
          actual := found.getD .endOfInput, remainder } := by
  rcases context with ⟨_ | name⟩ <;> rfl

/-- **A literal stops behind the common start.**  On a stream that can be gone through, does not
begin past the end of its source and has `tokens` left, let `count` be how many of the characters
of a literal they begin with.  If that is all of them, the literal matches and leaves the rest.
Otherwise it fails behind them, with the token there, or the end of the input, and expects the
whole text, or the name in the context.  The characters one after another match and fail alike,
at the same place and with the same token. -/
theorem literal_stops_behind_common_start (s : String) (htokens : stream.toList = .ok tokens)
    {size : Nat} (hsize : stream.source.size = .ok size) (hend : stream.position ≤ size)
    (context : Context) :
    let count := commonLength s.toList tokens
    (count = s.length →
        (literal s).Matches stream context (.text s) (stream.later count)
          ∧ ∀ first more, s.toList = first :: more →
            ∃ last, (inOrder first more).Matches stream context last (stream.later count))
      ∧ (count ≠ s.length →
        (literal s).Fails stream context
            { expected := .described ⟨.oneOf, [.text (context.name.getD s)]⟩,
              actual := tokens[count]?.getD .endOfInput, remainder := stream.later count }
          ∧ ∀ first more, s.toList = first :: more →
            ∃ expected, (inOrder first more).Fails stream context
              { expected, actual := tokens[count]?.getD .endOfInput,
                remainder := stream.later count }) := by
  intro count
  have hadvance : ∀ n ≤ tokens.length, stream.advance (0 + n : Nat) = .ok (stream.later n) := by
    intro n hn
    rw [Nat.zero_add]
    exact Stream.advance_of_toList htokens hsize hend hn
  have hliteral : ((literal s).run stream context).ending = _ :=
    literalFrom_ending htokens 0 hadvance s.toList
  rw [String.length_toList, mismatch_single] at hliteral
  have horder : ∀ first more, s.toList = first :: more →
      (inOrder first more).Follows stream context stream s.toList tokens := by
    intro first more hchars
    rw [hchars]
    exact inOrder_follows htokens context first more
  simp only [Follows, String.length_toList] at horder
  refine ⟨fun hall => ⟨?_, ?_⟩, fun hother => ⟨?_, ?_⟩⟩
  · rw [Matches, hliteral, if_pos hall]
  · exact fun first more hchars => (horder first more hchars).1 hall
  · rw [Fails, hliteral, if_neg hother]
  · exact fun first more hchars => (horder first more hchars).2 hother

/-- Two of three characters are there, and then a number.  Under a name, the name is expected. -/
theorem literal_stops_at_number :
    let stream : Stream (Value Stock) :=
      ⟨.whole (.list [.text "-", .char 'a', .char 'b', .int 7]), 1⟩
    let tokens : List (Value Stock) := [.char 'a', .char 'b', .int 7]
    stream.toList = .ok tokens ∧ stream.source.size = .ok 4 ∧ stream.position ≤ (4 : Nat)
      ∧ (literal "ab").Matches stream {} (.text "ab") ⟨stream.source, 3⟩
      ∧ (literal "abc").Fails stream ⟨some "word"⟩
          { expected := .described ⟨.oneOf, [.text "word"]⟩, actual := .int 7,
            remainder := ⟨stream.source, 3⟩ }
      ∧ ∃ expected, (inOrder 'a' ['b', 'c']).Fails stream ⟨some "word"⟩
          { expected, actual := .int 7, remainder := ⟨stream.source, 3⟩ } := by
  intro stream tokens
  have htokens : stream.toList = .ok tokens := rfl
  have hend : stream.position ≤ (4 : Nat) := by decide
  obtain ⟨hmatches, -⟩ := literal_stops_behind_common_start "ab" htokens rfl hend {}
  obtain ⟨-, hfails⟩ := literal_stops_behind_common_start "abc" htokens rfl hend ⟨some "word"⟩
  obtain ⟨hliteral, horder⟩ := hfails (by decide)
  exact ⟨htokens, rfl, hend, (hmatches (by decide)).1, hliteral, horder 'a' ['b', 'c'] (by decide)⟩

end Parser

end Tokenwise
