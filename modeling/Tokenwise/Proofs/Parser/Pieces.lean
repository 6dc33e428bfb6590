import Tokenwise.Proofs.Choice.Chain
import Tokenwise.Proofs.Stream.Tokens
import Tokenwise.Proofs.Value.Equality

/-!
# Which piece of the input a parser takes

A grammar for a written form is right if its parsers take back what was written, piece by
piece.  A parser **takes** a piece with an output if, wherever the piece is left and then
the rest, it matches and leaves the rest (`Parser.Takes`).  What follows a piece belongs to
the statement, since a repetition must be told where to stop.  A parser **refuses** an
input at an offset if it fails there wherever just this input is left (`Parser.Refuses`).

There is a rule for each combinator.  Pieces that are taken one after another are taken as
one (`Takes.sequence`), and so are the pieces of a repetition, if its parser refuses the
rest (`Takes.repeated`).  A choice takes what its first parser takes, or what the second one
does if the first one refuses it where it begins.

What a parser takes of a whole input decides how the input is parsed
(`Takes.parse`, `Takes.parse_of_rest`, `Refuses.parse`).
-/

namespace Tokenwise

variable {Op : Type}

namespace Parser

/-- Whether, wherever `taken` is left and then `rest`, a parser takes the one and leaves the
other. -/
def Takes (p : Parser Op) (taken rest : List (Value Op)) (output : Value Op) : Prop :=
  ∀ (stream : Stream (Value Op)) (context : Context), stream.Within →
    stream.tokens = taken ++ rest → p.Matches stream context output (stream.later taken.length)

/-- Whether, wherever just the tokens are left, a parser fails so many tokens further on. -/
def Refuses (p : Parser Op) (tokens : List (Value Op)) (offset : Nat) : Prop :=
  ∀ (stream : Stream (Value Op)) (context : Context), stream.Within → stream.tokens = tokens →
    ∃ failure, p.Fails stream context failure ∧ failure.position = stream.position + offset

variable {p q : Parser Op} {taken left right rest tokens : List (Value Op)} {v output : Value Op}
  {offset : Nat}

/-- Where a piece and then the rest is left, the rest is left later. -/
theorem within_later_of_tokens {stream : Stream (Value Op)} (hwithin : stream.Within)
    (htokens : stream.tokens = taken ++ rest) :
    (stream.later taken.length).Within ∧ (stream.later taken.length).tokens = rest := by
  have hlength : taken.length ≤ stream.tokens.length := by
    rw [htokens, List.length_append]
    omega
  refine ⟨hwithin.later hlength, ?_⟩
  rw [Stream.tokens_later hwithin, htokens, List.drop_left]

section Matchers

variable {test : Value Op → Bool} {kind : Descriptor.Kind} {labels : List (Value Op)}

theorem takes_satisfying (htest : test v = true) (rest : List (Value Op)) :
    (satisfying test kind labels).Takes [v] rest v := by
  intro stream context hwithin htokens
  have hpeek : stream.peek = .ok (some v) := by
    rw [hwithin.peek_eq, htokens]
    rfl
  have hadvance : stream.advance = .ok (stream.later 1) := by
    have hone : min 1 stream.tokens.length = 1 := by
      rw [htokens, List.length_append, List.length_singleton]
      omega
    have hlater := hwithin.advance_eq 1
    rwa [hone] at hlater
  exact matches_satisfying_iff.mpr ⟨hpeek, htest, hadvance⟩

/-- A matcher refuses a token that does not pass its test, and the end of the input. -/
theorem refuses_satisfying (htest : ∀ v, tokens.head? = some v → test v = false) :
    (satisfying test kind labels).Refuses tokens 0 := by
  intro stream context hwithin htokens
  have hpeek : stream.peek = .ok tokens.head? := by rw [hwithin.peek_eq, htokens]
  have hfound : tokens.head?.filter test = none := by
    cases hhead : tokens.head? with
    | none => rfl
    | some v => rw [Option.filter_some, htest v hhead, if_neg Bool.false_ne_true]
  refine ⟨_, fails_satisfying_iff.mpr ⟨_, hpeek, hfound, rfl⟩, ?_⟩
  change stream.position = stream.position + (0 : Nat)
  omega

theorem takes_token (v : Value Op) (rest : List (Value Op)) : (token v).Takes [v] rest v := by
  refine takes_satisfying ?_ rest
  exact Value.beq_self v

theorem refuses_token (htokens : ∀ w, tokens.head? = some w → (w == v) = false) :
    (token v).Refuses tokens 0 :=
  refuses_satisfying htokens

theorem refuses_char {c : Char} {chars : List Char} (hchars : chars.head? ≠ some c) :
    (token (.char c : Value Op)).Refuses (chars.map .char) 0 := by
  refine refuses_token fun v hv => ?_
  cases chars with
  | nil => cases hv
  | cons d chars =>
      have hne : d ≠ c := fun h => hchars (congrArg some h)
      rw [← Option.some.inj hv, Value.char_beq_char, beq_false_of_ne hne]

theorem takes_pure (v : Value Op) (rest : List (Value Op)) : (pure v).Takes [] rest v := by
  intro stream context _ _
  rw [List.length_nil, Stream.later_zero]
  rfl

end Matchers

theorem Takes.map (hp : p.Takes taken rest v) {f : Value Op → Run Op (Value Op)}
    (hf : (f v).ending = .done output) : (p.map f).Takes taken rest output :=
  fun stream context hwithin htokens =>
    matches_map_iff.mpr ⟨v, hp stream context hwithin htokens, hf⟩

theorem Refuses.map (hp : p.Refuses tokens offset) (f : Value Op → Run Op (Value Op)) :
    (p.map f).Refuses tokens offset := by
  intro stream context hwithin htokens
  obtain ⟨failure, hfails, hposition⟩ := hp stream context hwithin htokens
  exact ⟨failure, fails_map_iff.mpr hfails, hposition⟩

section Sequence

variable {join : Value Op → Value Op → Run Op (Value Op)}

theorem Takes.sequence {first second : Value Op} (hp : p.Takes left (right ++ rest) first)
    (hq : q.Takes right rest second) (hjoin : (join first second).ending = .done output) :
    (p.sequence q join).Takes (left ++ right) rest output := by
  intro stream context hwithin htokens
  rw [List.append_assoc] at htokens
  obtain ⟨hmiddle, hleft⟩ := within_later_of_tokens hwithin htokens
  have hsecond := hq _ context.withoutName hmiddle hleft
  rw [Stream.later_later, ← List.length_append] at hsecond
  exact matches_sequence_iff.mpr
    ⟨first, _, second, hp stream context hwithin htokens, hsecond, hjoin⟩

theorem Takes.keepLeft {first second : Value Op} (hp : p.Takes left (right ++ rest) first)
    (hq : q.Takes right rest second) : (p.keepLeft q).Takes (left ++ right) rest first :=
  hp.sequence hq rfl

theorem Takes.keepRight {first second : Value Op} (hp : p.Takes left (right ++ rest) first)
    (hq : q.Takes right rest second) : (p.keepRight q).Takes (left ++ right) rest second :=
  hp.sequence hq rfl

theorem Refuses.sequence (hp : p.Refuses tokens offset) (q : Parser Op)
    (join : Value Op → Value Op → Run Op (Value Op)) :
    (p.sequence q join).Refuses tokens offset := by
  intro stream context hwithin htokens
  obtain ⟨failure, hfails, hposition⟩ := hp stream context hwithin htokens
  exact ⟨failure, fails_sequence_iff.mpr (.inl hfails), hposition⟩

theorem Refuses.keepLeft (hp : p.Refuses tokens offset) (q : Parser Op) :
    (p.keepLeft q).Refuses tokens offset :=
  hp.sequence q _

theorem Refuses.keepRight (hp : p.Refuses tokens offset) (q : Parser Op) :
    (p.keepRight q).Refuses tokens offset :=
  hp.sequence q _

/-- A sequence refuses what its second parser refuses after the piece of the first one. -/
theorem Takes.sequence_refuses (hp : p.Takes taken rest v) (hq : q.Refuses rest offset)
    (join : Value Op → Value Op → Run Op (Value Op)) :
    (p.sequence q join).Refuses (taken ++ rest) (taken.length + offset) := by
  intro stream context hwithin htokens
  obtain ⟨hmiddle, hrest⟩ := within_later_of_tokens hwithin htokens
  obtain ⟨failure, hfails, hposition⟩ := hq _ context.withoutName hmiddle hrest
  refine ⟨failure, ?_, ?_⟩
  · exact fails_sequence_iff.mpr (.inr ⟨v, _, hp stream context hwithin htokens, hfails⟩)
  · rw [hposition]
    change stream.position + (taken.length : Int) + offset = _
    omega

theorem Takes.keepLeft_refuses (hp : p.Takes taken rest v) (hq : q.Refuses rest offset) :
    (p.keepLeft q).Refuses (taken ++ rest) (taken.length + offset) :=
  hp.sequence_refuses hq _

theorem Takes.keepRight_refuses (hp : p.Takes taken rest v) (hq : q.Refuses rest offset) :
    (p.keepRight q).Refuses (taken ++ rest) (taken.length + offset) :=
  hp.sequence_refuses hq _

end Sequence

section Choice

theorem Takes.orElse (hp : p.Takes taken rest output) (q : Parser Op) :
    (p.orElse q).Takes taken rest output :=
  fun stream context hwithin htokens =>
    matches_orElse_iff.mpr (.inl (hp stream context hwithin htokens))

/-- The second parser of a choice is tried after the first one has refused the input where
it begins. -/
theorem Refuses.orElse_takes (hp : p.Refuses (taken ++ rest) 0) (hq : q.Takes taken rest output) :
    (p.orElse q).Takes taken rest output := by
  intro stream context hwithin htokens
  obtain ⟨failure, hfails, hposition⟩ := hp stream context hwithin htokens
  have hstart : failure.position = stream.position := by omega
  exact matches_orElse_iff.mpr (.inr ⟨failure, hfails, fallsThrough_of_start p hstart,
    hq stream context hwithin htokens⟩)

/-- A choice commits to its first parser, if this one is not marked and has refused the
input further on. -/
theorem Refuses.orElse (hp : p.Refuses tokens offset) (hmark : p.backtracks = false)
    (hoffset : 0 < offset) (q : Parser Op) : (p.orElse q).Refuses tokens offset := by
  intro stream context hwithin htokens
  obtain ⟨failure, hfails, hposition⟩ := hp stream context hwithin htokens
  have hstop : ¬ p.fallsThrough failure stream := by
    rw [fallsThrough_iff_of_unmarked hmark]
    omega
  exact ⟨failure, fails_orElse_iff.mpr ⟨failure, hfails, .inl ⟨hstop, rfl⟩⟩, hposition⟩

end Choice

section Deferred

variable {find : Unit → Run Op (Parser Op)}

theorem Takes.deferred (hp : p.Takes taken rest output) (hfind : (find ()).ending = .done p) :
    (Parser.deferred find).Takes taken rest output :=
  fun stream context hwithin htokens =>
    deferred_ending_eq_done_iff.mpr ⟨p, hfind, hp stream context hwithin htokens⟩

theorem Refuses.deferred (hp : p.Refuses tokens offset) (hfind : (find ()).ending = .done p) :
    (Parser.deferred find).Refuses tokens offset := by
  intro stream context hwithin htokens
  obtain ⟨failure, hfails, hposition⟩ := hp stream context hwithin htokens
  exact ⟨failure, deferred_ending_eq_done_iff.mpr ⟨p, hfind, hfails⟩, hposition⟩

end Deferred

section Repetition

variable {ι : Type} {write : ι → List (Value Op)} {value : ι → Value Op} {xs : List ι}

/-- A repetition goes through pieces that are not empty, and stops where its parser refuses
the rest. -/
theorem repeatFrom_of_takes (hp : ∀ x ∈ xs, ∀ after, p.Takes (write x) after (value x))
    (hwrite : ∀ x ∈ xs, write x ≠ []) (hrest : p.Refuses rest offset) {allowed : Nat}
    (hallowed : (xs.flatMap write).length < allowed) {stream : Stream (Value Op)}
    (hwithin : stream.Within) (htokens : stream.tokens = xs.flatMap write ++ rest)
    (context : Context) (bounded : Bool) :
    (p.repeatFrom context bounded allowed 0 stream).ending
      = .done (.success (xs.map value) (stream.later (xs.flatMap write).length)) := by
  induction xs generalizing allowed stream with
  | nil =>
      obtain ⟨allowed, rfl⟩ : ∃ n, allowed = n + 1 := ⟨allowed - 1, by omega⟩
      obtain ⟨failure, hfails, -⟩ := hrest stream context hwithin htokens
      rw [List.flatMap_nil, List.length_nil, Stream.later_zero]
      exact repeatFrom_of_fails hfails
  | cons x xs ih =>
      obtain ⟨allowed, rfl⟩ : ∃ n, allowed = n + 1 := ⟨allowed - 1, by omega⟩
      have hpiece : 0 < (write x).length := List.length_pos_iff.mpr (hwrite x List.mem_cons_self)
      rw [List.flatMap_cons, List.append_assoc] at htokens
      rw [List.flatMap_cons, List.length_append] at hallowed ⊢
      obtain ⟨hmiddle, hmore⟩ := within_later_of_tokens hwithin htokens
      have hfirst : p.Matches stream context (value x) (stream.later (write x).length) :=
        hp x List.mem_cons_self _ stream context hwithin htokens
      have hmoved : (stream.later (write x).length).position ≠ stream.position := by
        change stream.position + ((write x).length : Int) ≠ stream.position
        omega
      have hloop := ih (fun y hy => hp y (List.mem_cons_of_mem _ hy))
        (fun y hy => hwrite y (List.mem_cons_of_mem _ hy))
        (by omega : (xs.flatMap write).length < allowed) hmiddle hmore
      rw [Stream.later_later] at hloop
      exact repeatFrom_of_matches hfirst hmoved hloop

/-- **A repetition takes its pieces**, if none of them is empty and the rest is refused.  A
limit that is greater than the number of tokens taken is enough. -/
theorem Takes.repeated (hp : ∀ x ∈ xs, ∀ after, p.Takes (write x) after (value x))
    (hwrite : ∀ x ∈ xs, write x ≠ []) (hrest : p.Refuses rest offset) {limit : Nat}
    (hlimit : (xs.flatMap write).length < limit) :
    (p.repeated .any limit).Takes (xs.flatMap write) rest (.list (xs.map value)) := by
  intro stream context hwithin htokens
  have hloop := repeatFrom_of_takes hp hwrite hrest hlimit hwithin htokens context false
  rw [Matches, Parser.repeated, Run.ending_bind_eq_done]
  exact ⟨_, hloop, rfl⟩

end Repetition

section Whole

variable {items : Sequence (Value Op)}

/-- At its start, a whole input is left. -/
theorem within_whole (items : Sequence (Value Op)) :
    (Stream.mk (.whole items) 0).Within ∧ (Stream.mk (.whole items) 0).tokens = items.toList := by
  have hend : (0 : Int) ≤ items.size := Int.natCast_nonneg items.size
  exact ⟨⟨trivial, Int.le_refl 0, items.size, rfl, hend⟩, List.drop_zero⟩

/-- An input that is taken as a whole is parsed. -/
theorem Takes.parse (hp : p.Takes taken [] output) (hitems : items.toList = taken) :
    (p.parse (.whole items)).ending = .done (.ofOutput output) := by
  obtain ⟨hwithin, htokens⟩ := within_whole items
  rw [hitems, ← List.append_nil taken] at htokens
  obtain ⟨hfinish, hnothing⟩ := within_later_of_tokens hwithin htokens
  refine parse_of_matches rfl (hp _ {} hwithin htokens) ?_
  rw [hfinish.isAtEnd_eq, hnothing]
  rfl

/-- An input of which something is left is not parsed. -/
theorem Takes.parse_of_rest (hp : p.Takes taken rest output) (hrest : rest ≠ [])
    (hitems : items.toList = taken ++ rest) :
    ∃ failure, (p.parse (.whole items)).ending = .done (.failure failure) := by
  obtain ⟨hwithin, htokens⟩ := within_whole items
  rw [hitems] at htokens
  obtain ⟨hfinish, hmore⟩ := within_later_of_tokens hwithin htokens
  refine ⟨_, parse_of_matches_part rfl (hp _ {} hwithin htokens) ?_⟩
  rw [hfinish.isAtEnd_eq, hmore, List.isEmpty_eq_false_iff.mpr hrest]

theorem Refuses.parse (hp : p.Refuses tokens offset) (hitems : items.toList = tokens) :
    ∃ failure, (p.parse (.whole items)).ending = .done (.failure failure) := by
  obtain ⟨hwithin, htokens⟩ := within_whole items
  obtain ⟨failure, hfails, -⟩ := hp _ {} hwithin (htokens.trans hitems)
  exact ⟨failure, parse_of_fails rfl hfails⟩

end Whole

end Parser

end Tokenwise
