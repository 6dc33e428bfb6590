import Mathlib.Logic.Relation
import Tokenwise.Parser.Choice
import Tokenwise.Parser.Deferred
import Tokenwise.Parser.Lookahead
import Tokenwise.Parser.Matcher
import Tokenwise.Parser.Repetition
import Tokenwise.Parser.Sequence
import Tokenwise.Parser.Whole

/-!
# When a parser matches and when it fails

`Parser.Matches` and `Parser.Fails` are the two ways for a run to be done.  For each
combinator there is one rule for either, which tells what its parsers must have
done: a sequence fails if its first parser does, or if the second one does where the
first one has stopped; a choice fails with a failure of one of its parsers, or with
both merged.  Later modules argue from the rules and never open a run again.

A repetition that fails has come to the place of the failure by matches of its
parser, one after another (`Parser.exists_fails_of_fails_repeated`).
-/

namespace Tokenwise

variable {Op : Type}

namespace Run

variable {α β : Type} {run : Run Op (Reply Op α)}
  {next : α → Stream (Value Op) → Run Op (Reply Op β)}

/-- Looking something up is done if it is found. -/
theorem liftM_ending_eq_done {γ : Type} {result : Except Fault γ} {value : γ} :
    (liftM result : Run Op γ).ending = .done value ↔ result = .ok value := by
  cases result with
  | ok other => exact ⟨fun h => by cases h; rfl, fun h => by cases h; rfl⟩
  | error fault => exact ⟨nofun, nofun⟩

/-- What goes on after a success is a success if both are. -/
theorem andThen_ending_eq_success {output : β} {remainder : Stream (Value Op)} :
    (run >>= fun reply => reply.andThen next).ending = .done (.success output remainder)
      ↔ ∃ first middle, run.ending = .done (.success first middle)
        ∧ (next first middle).ending = .done (.success output remainder) := by
  rw [ending_bind_eq_done]
  constructor
  · rintro ⟨reply, hreply, hnext⟩
    cases reply with
    | success first middle => exact ⟨first, middle, hreply, hnext⟩
    | failure failure => simp [Reply.andThen, pure_def] at hnext
  · rintro ⟨first, middle, hfirst, hnext⟩
    exact ⟨_, hfirst, hnext⟩

/-- What goes on after a success fails if it has failed before, or fails then. -/
theorem andThen_ending_eq_failure {failure : Failure (Value Op)} :
    (run >>= fun reply => reply.andThen next).ending = .done (.failure failure)
      ↔ run.ending = .done (.failure failure)
        ∨ ∃ first middle, run.ending = .done (.success first middle)
          ∧ (next first middle).ending = .done (.failure failure) := by
  rw [ending_bind_eq_done]
  constructor
  · rintro ⟨reply, hreply, hnext⟩
    cases reply with
    | success first middle => exact .inr ⟨first, middle, hreply, hnext⟩
    | failure other =>
        obtain rfl : other = failure := by simpa [Reply.andThen, pure_def] using hnext
        exact .inl hreply
  · rintro (hfailure | ⟨first, middle, hfirst, hnext⟩)
    · exact ⟨_, hfailure, rfl⟩
    · exact ⟨_, hfirst, hnext⟩

end Run

namespace Parser

/-- Whether a parser produces `output` and leaves `remainder`. -/
def Matches (p : Parser Op) (stream : Stream (Value Op)) (context : Context)
    (output : Value Op) (remainder : Stream (Value Op)) : Prop :=
  (p.run stream context).ending = .done (.success output remainder)

/-- Whether a parser replies with `failure`. -/
def Fails (p : Parser Op) (stream : Stream (Value Op)) (context : Context)
    (failure : Failure (Value Op)) : Prop :=
  (p.run stream context).ending = .done (.failure failure)

variable {p q : Parser Op} {stream remainder : Stream (Value Op)} {context : Context}
  {output : Value Op} {failure : Failure (Value Op)}

section Matchers

/-- A one-token matcher fails where it is applied, if the next token does not pass
the test or there is none. -/
theorem fails_satisfying_iff {test : Value Op → Bool} {kind : Descriptor.Kind}
    {labels : List (Value Op)} :
    (satisfying test kind labels).Fails stream context failure
      ↔ ∃ found, stream.peek = .ok found ∧ found.filter test = none
        ∧ failure = mismatch kind labels context found stream := by
  simp only [Fails, satisfying, Run.ending_bind_eq_done, Run.liftM_ending_eq_done]
  constructor
  · rintro ⟨found, hpeek, hreply⟩
    cases hfilter : found.filter test with
    | none =>
        rw [hfilter] at hreply
        cases hreply
        exact ⟨found, hpeek, hfilter, rfl⟩
    | some token =>
        rw [hfilter] at hreply
        simp [Run.ending_bind_eq_done, Run.pure_def] at hreply
  · rintro ⟨found, hpeek, hfilter, rfl⟩
    refine ⟨found, hpeek, ?_⟩
    rw [hfilter]
    rfl

/-- A one-token matcher produces the next token and advances by one. -/
theorem matches_satisfying_iff {test : Value Op → Bool} {kind : Descriptor.Kind}
    {labels : List (Value Op)} :
    (satisfying test kind labels).Matches stream context output remainder
      ↔ stream.peek = .ok (some output) ∧ test output = true
        ∧ stream.advance = .ok remainder := by
  simp only [Matches, satisfying, Run.ending_bind_eq_done, Run.liftM_ending_eq_done]
  constructor
  · rintro ⟨found, hpeek, hreply⟩
    cases hfilter : found.filter test with
    | none =>
        rw [hfilter] at hreply
        cases hreply
    | some token =>
        obtain ⟨hfound, htest⟩ := Option.filter_eq_some_iff.mp hfilter
        simp only [hfilter, Run.ending_bind_eq_done, Run.liftM_ending_eq_done] at hreply
        obtain ⟨finish, hadvance, hlast⟩ := hreply
        cases hlast
        exact ⟨hfound ▸ hpeek, htest, hadvance⟩
  · rintro ⟨hpeek, htest, hadvance⟩
    refine ⟨some output, hpeek, ?_⟩
    simp only [Option.filter_some, htest, if_true, Run.ending_bind_eq_done,
      Run.liftM_ending_eq_done]
    exact ⟨remainder, hadvance, rfl⟩

/-- A literal fails at the first character that differs, some way after the start. -/
theorem exists_mismatch_of_fails_literalFrom {s : String} {offset : Nat} {cs : List Char}
    (h : (literalFrom s stream context offset cs).ending = .done (.failure failure)) :
    ∃ before c after, cs = before ++ c :: after
      ∧ ∃ here found, stream.advance (offset + before.length : Nat) = .ok here
        ∧ here.peek = .ok found ∧ found.any (· == .char c) = false
        ∧ failure = mismatch .oneOf [.text s] context found here := by
  induction cs generalizing offset with
  | nil =>
      rw [literalFrom, Run.ending_bind_eq_done] at h
      obtain ⟨finish, -, hreply⟩ := h
      cases hreply
  | cons c cs ih =>
      simp only [literalFrom, Run.ending_bind_eq_done, Run.liftM_ending_eq_done] at h
      obtain ⟨here, hhere, found, hfound, hreply⟩ := h
      by_cases hmatch : found.any (· == .char c)
      · rw [if_pos hmatch] at hreply
        obtain ⟨before, d, after, rfl, hmore⟩ := ih hreply
        refine ⟨c :: before, d, after, rfl, ?_⟩
        have hplace : offset + (c :: before).length = offset + 1 + before.length := by
          rw [List.length_cons]
          omega
        rwa [hplace]
      · rw [if_neg hmatch] at hreply
        cases hreply
        exact ⟨[], c, cs, rfl, here, found, hhere, hfound, Bool.eq_false_iff.mpr hmatch, rfl⟩

end Matchers

section Rules

theorem matches_map_iff {f : Value Op → Run Op (Value Op)} :
    (p.map f).Matches stream context output remainder
      ↔ ∃ first, p.Matches stream context first remainder ∧ (f first).ending = .done output := by
  simp only [Matches, map, Run.andThen_ending_eq_success]
  simp only [Run.ending_bind_eq_done]
  constructor
  · rintro ⟨first, middle, hfirst, result, hresult, hreply⟩
    cases hreply
    exact ⟨first, hfirst, hresult⟩
  · rintro ⟨first, hfirst, hresult⟩
    exact ⟨first, remainder, hfirst, output, hresult, rfl⟩

theorem fails_map_iff {f : Value Op → Run Op (Value Op)} :
    (p.map f).Fails stream context failure ↔ p.Fails stream context failure := by
  simp only [Fails, map, Run.andThen_ending_eq_failure]
  simp only [Run.ending_bind_eq_done]
  constructor
  · rintro (hfailure | ⟨first, middle, -, result, -, hreply⟩)
    · exact hfailure
    · cases hreply
  · exact .inl

theorem matches_sequence_iff {join : Value Op → Value Op → Run Op (Value Op)} :
    (p.sequence q join).Matches stream context output remainder
      ↔ ∃ left middle right, p.Matches stream context left middle
        ∧ q.Matches middle context.withoutName right remainder
        ∧ (join left right).ending = .done output := by
  simp only [Matches, sequence, Run.andThen_ending_eq_success]
  simp only [Run.ending_bind_eq_done]
  constructor
  · rintro ⟨left, middle, hleft, right, finish, hright, result, hresult, hreply⟩
    cases hreply
    exact ⟨left, middle, right, hleft, hright, hresult⟩
  · rintro ⟨left, middle, right, hleft, hright, hresult⟩
    exact ⟨left, middle, hleft, right, remainder, hright, output, hresult, rfl⟩

theorem fails_sequence_iff {join : Value Op → Value Op → Run Op (Value Op)} :
    (p.sequence q join).Fails stream context failure
      ↔ p.Fails stream context failure
        ∨ ∃ left middle, p.Matches stream context left middle
          ∧ q.Fails middle context.withoutName failure := by
  simp only [Fails, Matches, sequence, Run.andThen_ending_eq_failure]
  simp only [Run.ending_bind_eq_done]
  constructor
  · rintro (hfirst | ⟨left, middle, hleft, hsecond | ⟨right, finish, -, result, -, hreply⟩⟩)
    · exact .inl hfirst
    · exact .inr ⟨left, middle, hleft, hsecond⟩
    · cases hreply
  · rintro (hfirst | ⟨left, middle, hleft, hsecond⟩)
    · exact .inl hfirst
    · exact .inr ⟨left, middle, hleft, .inl hsecond⟩

/-- A choice matches as its first parser does, or as the second one does after a
failure of the first one that lets it. -/
theorem matches_orElse_iff :
    (p.orElse q).Matches stream context output remainder
      ↔ p.Matches stream context output remainder
        ∨ ∃ left, p.Fails stream context left ∧ p.fallsThrough left stream
          ∧ q.Matches stream context output remainder := by
  simp only [Matches, Fails, orElse, Run.ending_bind_eq_done]
  constructor
  · rintro ⟨reply, hreply, hnext⟩
    cases reply with
    | success first finish =>
        cases hnext
        exact .inl hreply
    | failure left =>
        by_cases hleft : p.fallsThrough left stream
        · simp only [if_pos hleft, Run.ending_bind_eq_done] at hnext
          obtain ⟨second, hsecond, hlast⟩ := hnext
          cases second with
          | success other finish =>
              cases hlast
              exact .inr ⟨left, hreply, hleft, hsecond⟩
          | failure right =>
              by_cases hright : q.fallsThrough right stream <;> simp [hright, Run.pure_def] at hlast
        · simp [hleft, Run.pure_def] at hnext
  · rintro (hfirst | ⟨left, hleft, hfall, hsecond⟩)
    · exact ⟨_, hfirst, rfl⟩
    · refine ⟨_, hleft, ?_⟩
      simp only [if_pos hfall, Run.ending_bind_eq_done]
      exact ⟨_, hsecond, rfl⟩

/-- A choice fails with a failure that its first parser does not let it go on after, with
one of the second parser that it has no part in, or with both of them merged. -/
theorem fails_orElse_iff :
    (p.orElse q).Fails stream context failure
      ↔ ∃ left, p.Fails stream context left
        ∧ ((¬ p.fallsThrough left stream ∧ failure = left)
          ∨ p.fallsThrough left stream ∧ ∃ right, q.Fails stream context right
            ∧ failure = if q.fallsThrough right stream then left.merge right else right) := by
  simp only [Fails, orElse, Run.ending_bind_eq_done]
  constructor
  · rintro ⟨reply, hreply, hnext⟩
    cases reply with
    | success first finish => cases hnext
    | failure left =>
        refine ⟨left, hreply, ?_⟩
        by_cases hleft : p.fallsThrough left stream
        · simp only [if_pos hleft, Run.ending_bind_eq_done] at hnext
          obtain ⟨second, hsecond, hlast⟩ := hnext
          cases second with
          | success other finish => cases hlast
          | failure right =>
              refine .inr ⟨hleft, right, hsecond, ?_⟩
              by_cases hright : q.fallsThrough right stream
              · simp only [if_pos hright] at hlast ⊢
                cases hlast
                rfl
              · simp only [if_neg hright] at hlast ⊢
                cases hlast
                rfl
        · simp only [if_neg hleft] at hnext
          cases hnext
          exact .inl ⟨hleft, rfl⟩
  · rintro ⟨left, hleft, ⟨hstop, rfl⟩ | ⟨hfall, right, hright, rfl⟩⟩
    · refine ⟨_, hleft, ?_⟩
      simp only [if_neg hstop]
      rfl
    · refine ⟨_, hleft, ?_⟩
      simp only [if_pos hfall, Run.ending_bind_eq_done]
      refine ⟨_, hright, ?_⟩
      by_cases hmerge : q.fallsThrough right stream
      · simp only [if_pos hmerge]
        rfl
      · simp only [if_neg hmerge]
        rfl

theorem matches_ahead_iff :
    p.ahead.Matches stream context output remainder
      ↔ remainder = stream ∧ ∃ finish, p.Matches stream context output finish := by
  simp only [Matches, ahead, Run.andThen_ending_eq_success]
  constructor
  · rintro ⟨first, finish, hfirst, hreply⟩
    cases hreply
    exact ⟨rfl, finish, hfirst⟩
  · rintro ⟨rfl, finish, hfirst⟩
    exact ⟨output, finish, hfirst, rfl⟩

theorem fails_ahead_iff : p.ahead.Fails stream context failure ↔ p.Fails stream context failure := by
  simp only [Fails, ahead, Run.andThen_ending_eq_failure]
  constructor
  · rintro (hfailure | ⟨first, finish, -, hreply⟩)
    · exact hfailure
    · cases hreply
  · exact .inl

/-- A negative lookahead fails where it is applied, with an output of its parser as what
it has found. -/
theorem exists_matches_of_fails_notAhead (h : p.notAhead.Fails stream context failure) :
    ∃ output remainder, p.Matches stream context output remainder
      ∧ failure = { expected := .unknown, actual := output, remainder := stream } := by
  simp only [Fails, notAhead, Run.ending_bind_eq_done] at h
  obtain ⟨reply, hreply, hnext⟩ := h
  cases reply with
  | success output remainder =>
      cases hnext
      exact ⟨output, remainder, hreply, rfl⟩
  | failure other => cases hnext

/-- A deferred parser does what the parser that is found does. -/
theorem deferred_ending_eq_done_iff {find : Unit → Run Op (Parser Op)} {reply : Reply Op (Value Op)} :
    ((deferred find).run stream context).ending = .done reply
      ↔ ∃ p, (find ()).ending = .done p ∧ (p.run stream context).ending = .done reply := by
  simp only [deferred, Run.ending_bind_eq_done]
  constructor
  · rintro ⟨p, hfind, _, -, hreply⟩
    exact ⟨p, hfind, hreply⟩
  · rintro ⟨p, hfind, hreply⟩
    exact ⟨p, hfind, (), rfl, hreply⟩

end Rules

section Repetition

/-- Whether a parser matches at `stream` and stops at `finish`. -/
def Steps (p : Parser Op) (context : Context) (stream finish : Stream (Value Op)) : Prop :=
  ∃ output, p.Matches stream context output finish

/-- What a repetition makes of its first run: it is over if the run fails or has not gone
on, and otherwise the output stands before those of the runs that follow. -/
theorem repeatFrom_ending_eq_done_iff {bounded : Bool} {allowed needed : Nat}
    {reply : Reply Op (List (Value Op))} :
    (p.repeatFrom context bounded (allowed + 1) needed stream).ending = .done reply
      ↔ (∃ failure, p.Fails stream context failure
          ∧ reply = if needed = 0 then .success [] stream else .failure failure)
        ∨ (∃ output finish, p.Matches stream context output finish
            ∧ finish.position = stream.position
            ∧ reply = .success (output :: List.replicate (needed - 1) output) stream)
        ∨ ∃ output middle more, p.Matches stream context output middle
            ∧ middle.position ≠ stream.position
            ∧ (p.repeatFrom context bounded allowed (needed - 1) middle).ending = .done more
            ∧ reply = more.mapOutput (output :: ·) := by
  rw [repeatFrom, Run.ending_bind_eq_done]
  constructor
  · rintro ⟨first, hfirst, hnext⟩
    cases first with
    | failure failure =>
        refine .inl ⟨failure, hfirst, ?_⟩
        by_cases henough : needed = 0
        · simp only [if_pos henough] at hnext ⊢
          cases hnext
          rfl
        · simp only [if_neg henough] at hnext ⊢
          cases hnext
          rfl
    | success output middle =>
        by_cases hstay : middle.position = stream.position
        · simp only [if_pos hstay, Run.ending_bind_eq_done] at hnext
          obtain ⟨_, -, hlast⟩ := hnext
          cases hlast
          exact .inr (.inl ⟨output, middle, hfirst, hstay, rfl⟩)
        · simp only [if_neg hstay, Run.ending_bind_eq_done] at hnext
          obtain ⟨more, hmore, hlast⟩ := hnext
          cases hlast
          exact .inr (.inr ⟨output, middle, more, hfirst, hstay, hmore, rfl⟩)
  · rintro (⟨failure, hfails, rfl⟩ | ⟨output, finish, hmatches, hstay, rfl⟩
      | ⟨output, middle, more, hmatches, hmoved, hmore, rfl⟩)
    · refine ⟨_, hfails, ?_⟩
      by_cases henough : needed = 0
      · simp only [if_pos henough]
        rfl
      · simp only [if_neg henough]
        rfl
    · refine ⟨_, hmatches, ?_⟩
      simp only [if_pos hstay, Run.ending_bind_eq_done]
      exact ⟨(), rfl, rfl⟩
    · refine ⟨_, hmatches, ?_⟩
      simp only [if_neg hmoved, Run.ending_bind_eq_done]
      exact ⟨more, hmore, rfl⟩

/-- A repetition fails in its first run if an output is missing, or else in the runs that
follow one that has gone on. -/
theorem repeatFrom_ending_eq_failure_iff {bounded : Bool} {allowed needed : Nat} :
    (p.repeatFrom context bounded (allowed + 1) needed stream).ending = .done (.failure failure)
      ↔ (needed ≠ 0 ∧ p.Fails stream context failure)
        ∨ ∃ first middle, p.Matches stream context first middle
          ∧ middle.position ≠ stream.position
          ∧ (p.repeatFrom context bounded allowed (needed - 1) middle).ending
            = .done (.failure failure) := by
  rw [repeatFrom_ending_eq_done_iff]
  constructor
  · rintro (⟨other, hfails, hreply⟩ | ⟨_, _, -, -, hreply⟩
      | ⟨first, middle, more, hmatches, hmoved, hmore, hreply⟩)
    · by_cases henough : needed = 0
      · rw [if_pos henough] at hreply
        cases hreply
      · rw [if_neg henough] at hreply
        cases hreply
        exact .inl ⟨henough, hfails⟩
    · cases hreply
    · cases more with
      | success outputs finish => cases hreply
      | failure other =>
          cases hreply
          exact .inr ⟨first, middle, hmatches, hmoved, hmore⟩
  · rintro (⟨hmissing, hfails⟩ | ⟨first, middle, hmatches, hmoved, hmore⟩)
    · exact .inl ⟨failure, hfails, (if_neg hmissing).symm⟩
    · exact .inr (.inr ⟨first, middle, _, hmatches, hmoved, hmore, rfl⟩)

/-- A repetition that may still run its parser is unfinished if this run is, or else in the
runs that follow one that has gone on. -/
theorem repeatFrom_ending_eq_unfinished_iff {bounded : Bool} {allowed needed : Nat} :
    (p.repeatFrom context bounded (allowed + 1) needed stream).ending = .unfinished
      ↔ (p.run stream context).ending = .unfinished
        ∨ ∃ output middle, p.Matches stream context output middle
          ∧ middle.position ≠ stream.position
          ∧ (p.repeatFrom context bounded allowed (needed - 1) middle).ending = .unfinished := by
  rw [repeatFrom, Run.ending_bind_eq_unfinished]
  refine or_congr_right ⟨?_, ?_⟩
  · rintro ⟨reply, hreply, hnext⟩
    cases reply with
    | failure failure =>
        by_cases henough : needed = 0 <;> simp [henough, Run.pure_def] at hnext
    | success output middle =>
        by_cases hstay : middle.position = stream.position
        · simp [hstay, Run.pure_def, Run.report] at hnext
        · simp only [if_neg hstay, Run.ending_bind_eq_unfinished] at hnext
          obtain hmore | ⟨more, -, hlast⟩ := hnext
          · exact ⟨output, middle, hreply, hstay, hmore⟩
          · cases hlast
  · rintro ⟨output, middle, hmatches, hmoved, hmore⟩
    refine ⟨_, hmatches, ?_⟩
    simp only [if_neg hmoved, Run.ending_bind_eq_unfinished]
    exact .inl hmore

theorem exists_fails_of_fails_repeatFrom {bounded : Bool} {allowed needed : Nat}
    (h : (p.repeatFrom context bounded allowed needed stream).ending = .done (.failure failure)) :
    ∃ here, Relation.ReflTransGen (p.Steps context) stream here ∧ p.Fails here context failure := by
  induction allowed generalizing needed stream with
  | zero => cases bounded <;> cases h
  | succ allowed ih =>
      obtain ⟨-, hfails⟩ | ⟨first, middle, hmatches, -, hmore⟩ :=
        repeatFrom_ending_eq_failure_iff.mp h
      · exact ⟨stream, .refl, hfails⟩
      · obtain ⟨here, hsteps, hfails⟩ := ih hmore
        exact ⟨here, .head ⟨first, hmatches⟩ hsteps, hfails⟩

/-- A repetition fails as its parser does, where matches of it have led. -/
theorem exists_fails_of_fails_repeated {bounds : Bounds} {limit : Nat}
    (h : (p.repeated bounds limit).Fails stream context failure) :
    ∃ here, Relation.ReflTransGen (p.Steps context) stream here ∧ p.Fails here context failure := by
  simp only [Fails, repeated, Run.ending_bind_eq_done] at h
  obtain ⟨reply, hreply, hlast⟩ := h
  cases reply with
  | success outputs finish => cases hlast
  | failure other =>
      cases hlast
      exact exists_fails_of_fails_repeatFrom hreply

/-- A repetition that misses no output does not fail. -/
theorem repeatFrom_ending_ne_failure {bounded : Bool} {allowed : Nat} :
    (p.repeatFrom context bounded allowed 0 stream).ending ≠ .done (.failure failure) := by
  induction allowed generalizing stream with
  | zero => cases bounded <;> exact nofun
  | succ allowed ih =>
      intro h
      obtain ⟨hmissing, -⟩ | ⟨first, middle, -, -, hmore⟩ := repeatFrom_ending_eq_failure_iff.mp h
      · exact hmissing rfl
      · exact ih hmore

/-- A repetition that misses one output fails in its first run or not at all. -/
theorem repeatFrom_one_ending_eq_failure_iff {bounded : Bool} {allowed : Nat} :
    (p.repeatFrom context bounded allowed 1 stream).ending = .done (.failure failure)
      ↔ 0 < allowed ∧ p.Fails stream context failure := by
  cases allowed with
  | zero => cases bounded <;> exact ⟨nofun, nofun⟩
  | succ allowed =>
      rw [repeatFrom_ending_eq_failure_iff]
      constructor
      · rintro (⟨-, hfails⟩ | ⟨first, middle, -, -, hmore⟩)
        · exact ⟨Nat.succ_pos allowed, hfails⟩
        · exact absurd hmore repeatFrom_ending_ne_failure
      · rintro ⟨-, hfails⟩
        exact .inl ⟨Nat.one_ne_zero, hfails⟩

/-- A repetition that asks for one output at most fails only where its parser fails in
the first run. -/
theorem fails_repeated_iff {bounds : Bounds} {limit : Nat} (hbounds : bounds.atLeast ≤ 1) :
    (p.repeated bounds limit).Fails stream context failure
      ↔ bounds.atLeast = 1 ∧ 0 < bounds.atMost.getD limit ∧ p.Fails stream context failure := by
  have hloop : (p.repeatFrom context bounds.atMost.isSome (bounds.atMost.getD limit) 1 stream).ending
      = .done (.failure failure)
        ↔ 0 < bounds.atMost.getD limit ∧ p.Fails stream context failure :=
    repeatFrom_one_ending_eq_failure_iff
  rw [← hloop]
  simp only [Fails, repeated, Run.ending_bind_eq_done]
  constructor
  · rintro ⟨reply, hreply, hlast⟩
    cases reply with
    | success outputs finish => cases hlast
    | failure other =>
        cases hlast
        obtain hnone | hone : bounds.atLeast = 0 ∨ bounds.atLeast = 1 := by omega
        · rw [hnone] at hreply
          exact absurd hreply repeatFrom_ending_ne_failure
        · exact ⟨hone, hone ▸ hreply⟩
  · rintro ⟨hone, hfails⟩
    exact ⟨.failure failure, hone ▸ hfails, rfl⟩

/-- A repetition that misses no output is over where its parser fails. -/
theorem repeatFrom_of_fails {bounded : Bool} {allowed : Nat}
    (h : p.Fails stream context failure) :
    (p.repeatFrom context bounded (allowed + 1) 0 stream).ending = .done (.success [] stream) :=
  repeatFrom_ending_eq_done_iff.mpr (.inl ⟨failure, h, rfl⟩)

/-- A repetition goes on after a match that has. -/
theorem repeatFrom_of_matches {bounded : Bool} {allowed needed : Nat} {middle : Stream (Value Op)}
    (h : p.Matches stream context output middle) (hmoved : middle.position ≠ stream.position)
    {outputs : List (Value Op)}
    (hmore : (p.repeatFrom context bounded allowed (needed - 1) middle).ending
      = .done (.success outputs remainder)) :
    (p.repeatFrom context bounded (allowed + 1) needed stream).ending
      = .done (.success (output :: outputs) remainder) :=
  repeatFrom_ending_eq_done_iff.mpr (.inr (.inr ⟨output, middle, _, h, hmoved, hmore, rfl⟩))

end Repetition

section Whole

variable {input : Source (Value Op)}

/-- Parsing a whole input gives the failure of the parser. -/
theorem parse_of_fails {size : Nat} (hsize : input.size = .ok size)
    (h : p.Fails ⟨input, 0⟩ {} failure) : (p.parse input).ending = .done (.failure failure) := by
  simp only [parse, Run.ending_bind_eq_done, Run.liftM_ending_eq_done]
  exact ⟨size, hsize, (), rfl, _, h, rfl⟩

/-- Parsing a whole input gives the output of a match that has left nothing. -/
theorem parse_of_matches {size : Nat} (hsize : input.size = .ok size)
    (h : p.Matches ⟨input, 0⟩ {} output remainder) (hend : remainder.isAtEnd = .ok true) :
    (p.parse input).ending = .done (.ofOutput output) := by
  simp only [parse, Run.ending_bind_eq_done, Run.liftM_ending_eq_done]
  refine ⟨size, hsize, (), rfl, _, h, ?_⟩
  simp only [Run.ending_bind_eq_done, Run.liftM_ending_eq_done]
  exact ⟨true, hend, rfl⟩

/-- Parsing a whole input fails if a match has left something. -/
theorem parse_of_matches_part {size : Nat} (hsize : input.size = .ok size)
    (h : p.Matches ⟨input, 0⟩ {} output remainder) (hmore : remainder.isAtEnd = .ok false) :
    (p.parse input).ending = .done (.failure
      { expected := .endOfInput, actual := .stream remainder, remainder }) := by
  simp only [parse, Run.ending_bind_eq_done, Run.liftM_ending_eq_done]
  refine ⟨size, hsize, (), rfl, _, h, ?_⟩
  simp only [Run.ending_bind_eq_done, Run.liftM_ending_eq_done]
  exact ⟨false, hmore, rfl⟩

/-- Parsing a whole input fails as the parser does, or with an output that is a failure,
or because not all of the input has been consumed. -/
theorem fails_or_of_parse_ending_eq_failure
    (h : (p.parse input).ending = .done (.failure failure)) :
    p.Fails ⟨input, 0⟩ {} failure
      ∨ (∃ remainder, p.Matches ⟨input, 0⟩ {} (.failure failure) remainder)
      ∨ ∃ output remainder, p.Matches ⟨input, 0⟩ {} output remainder
        ∧ failure = { expected := .endOfInput, actual := .stream remainder, remainder } := by
  simp only [parse, Run.ending_bind_eq_done] at h
  obtain ⟨size, -, _, -, reply, hreply, hverdict⟩ := h
  cases reply with
  | failure other =>
      simp only [Run.ending_bind_eq_done] at hverdict
      obtain ⟨_, -, hlast⟩ := hverdict
      cases hlast
      exact .inl hreply
  | success output remainder =>
      simp only [Run.ending_bind_eq_done] at hverdict
      obtain ⟨finished, -, hlast⟩ := hverdict
      cases finished with
      | true =>
          cases output with
          | failure other =>
              cases hlast
              exact .inr (.inl ⟨remainder, hreply⟩)
          | _ => cases hlast
      | false =>
          cases hlast
          exact .inr (.inr ⟨output, remainder, hreply, rfl⟩)

end Whole

end Parser

end Tokenwise
