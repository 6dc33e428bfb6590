import Tokenwise.Proofs.Failure.Law

/-!
# What a failure has found is where it lies

A failure has three fields that are read together: something was expected, something
else was found, and it was found at the position of the remainder.  The message takes
the position from the one and the token from the other, so it is true only if the token
found is the next one of the remainder.

A mismatch is made so (`Failure.foundNext_mismatch`).  A merge takes both fields from
the second failure, and lists what both have expected (`Failure.foundNext_merge`).
What is left out are the parts that fail without having looked: `fail`, which says
what its user likes, the negative lookahead, which reports an output, and the choice
among no parsers.
-/

namespace Tokenwise

variable {Op : Type}

namespace Failure

variable {left right failure : Failure (Value Op)}

/-- Whether what was found is the next token of the remainder, or the end of the input
if there is none. -/
def FoundNext (failure : Failure (Value Op)) : Prop :=
  ∃ next, failure.remainder.peek = .ok next ∧ failure.actual = next.getD .endOfInput

theorem foundNext_mismatch {kind : Descriptor.Kind} {labels : List (Value Op)} {context : Context}
    {found : Option (Value Op)} {here : Stream (Value Op)} (hpeek : here.peek = .ok found) :
    (Parser.mismatch kind labels context found here).FoundNext :=
  ⟨found, hpeek, rfl⟩

theorem foundNext_merge (h : right.FoundNext) : (left.merge right).FoundNext := by
  obtain ⟨next, hpeek, hactual⟩ := h
  refine ⟨next, ?_, ?_⟩
  · rw [remainder_merge, hpeek]
  · rw [actual_merge, hactual]

/-- A merged failure has a descriptor if the second one has. -/
theorem exists_described_merge (h : ∃ d, right.expected = .described d) :
    ∃ d, (left.merge right).expected = .described d := by
  unfold merge
  split
  · split
    · exact ⟨_, rfl⟩
    · exact h
  · exact h

end Failure

/-- What was found is the next token, and some token was asked for instead. -/
def FailureLaw.foundNext (Op : Type) : FailureLaw Op where
  Holds failure := (∃ d, failure.expected = .described d) ∧ failure.FoundNext
  Reads _ := True
  Told _ := True
  -- the first failure of a merge may lie anywhere, for only its items are kept
  Apart := True
  reads_onward := fun _ _ => trivial
  told_nameless := trivial
  merge := fun _ hright _ =>
    ⟨Failure.exists_described_merge hright.1, Failure.foundNext_merge hright.2⟩

namespace FailureLaw

theorem foundNext_holdsFor_satisfying (test : Value Op → Bool) (kind : Descriptor.Kind)
    (labels : List (Value Op)) : (foundNext Op).HoldsFor (.satisfying test kind labels) := by
  intro stream context failure _ _ hfails
  obtain ⟨found, hpeek, -, rfl⟩ := Parser.fails_satisfying_iff.mp hfails
  exact ⟨⟨_, rfl⟩, Failure.foundNext_mismatch hpeek⟩

theorem foundNext_holdsFor_literal (s : String) : (foundNext Op).HoldsFor (.literal s) := by
  intro stream context failure _ _ hfails
  obtain ⟨before, c, after, -, here, found, -, hpeek, -, rfl⟩ :=
    Parser.exists_mismatch_of_fails_literalFrom hfails
  exact ⟨⟨_, rfl⟩, Failure.foundNext_mismatch hpeek⟩

end FailureLaw

/-- Whether a part looks at a token before it fails, unless it only passes failures on,
and is not a parser of the user's own. -/
def Grammar.LooksFirst : Grammar Op → Prop
  | fail _ _ | notAhead _ | alternatives [] | custom _ => False
  | _ => True

theorem Grammar.LooksFirst.permitted [Operations Op] {part : Grammar Op} (h : part.LooksFirst)
    (definitions : Definitions Op) : (FailureLaw.foundNext Op).Permits definitions part := by
  cases part with
  | token expected => exact FailureLaw.foundNext_holdsFor_satisfying _ _ _
  | notToken unexpected => exact FailureLaw.foundNext_holdsFor_satisfying _ _ _
  | oneOf choices => exact FailureLaw.foundNext_holdsFor_satisfying _ _ _
  | noneOf excluded => exact FailureLaw.foundNext_holdsFor_satisfying _ _ _
  | literal s => exact FailureLaw.foundNext_holdsFor_literal s
  | alternatives gs =>
      constructor
      · rintro rfl
        exact h.elim
      · intro before k after hsplit hfirst fuel limit
        exact .inl trivial
  | orElse g k => exact fun _ _ => .inl trivial
  | fail expected actual => exact h.elim
  | notAhead g => exact h.elim
  | custom p => exact h.elim
  | namedIfAbsent g name => exact fun _ _ => trivial
  | _ => trivial

/-- **The token found is the token at the reported position.**  Among any definitions,
take a grammar whose parts look at a token before they fail.  On every stream and in
every context, each of its failures has found the next token of its own remainder, or
the end of the input where no token is left, and expects one of some tokens or none of
them. -/
theorem Definitions.found_is_next_of_remainder [Operations Op] {definitions : Definitions Op}
    {g : Grammar Op} (hdefs : definitions.Every Grammar.LooksFirst)
    (hg : g.Every Grammar.LooksFirst) (fuel : Nat) (stream : Stream (Value Op)) (context : Context)
    {failure : Failure (Value Op)}
    (hrun : ((definitions.parser fuel g).run stream context).ending = .done (.failure failure)) :
    (∃ descriptor, failure.expected = .described descriptor)
      ∧ ∃ next, failure.remainder.peek = .ok next
        ∧ failure.actual = next.getD .endOfInput :=
  (FailureLaw.foundNext Op).holds_of_fails
    (fun entry hentry => (hdefs entry hentry).mono fun _ hpart => hpart.permitted definitions)
    (hg.mono fun _ hpart => hpart.permitted definitions) trivial trivial hrun

/-- A bracket that is not closed is reported with the token in the place of the closing
one, inside the text. -/
theorem Definitions.unclosed_bracket_found :
    let stream : Stream (Value Stock) := ⟨.whole (.text ['(', '(', ')', '-']), 0⟩
    let failure : Failure (Value Stock) :=
      { expected := .described ⟨.oneOf, [.char ')']⟩, actual := .char '-'
        remainder := ⟨stream.source, 3⟩ }
    ((brackets.parser 4 (.deferred "brackets")).run stream {}).ending = .done (.failure failure)
      ∧ (∃ descriptor, failure.expected = .described descriptor)
      ∧ ∃ next, failure.remainder.peek = .ok next ∧ failure.actual = next.getD .endOfInput := by
  intro stream failure
  have hdefs : brackets.Every Grammar.LooksFirst := by
    intro entry hentry
    obtain rfl := List.mem_singleton.mp hentry
    refine .pair trivial rfl ?_ (.leaf trivial rfl)
    refine .pair trivial rfl (.leaf trivial rfl) ?_
    exact .pair trivial rfl (.leaf trivial rfl) (.leaf trivial rfl)
  have hg : (Grammar.deferred "brackets" : Grammar Stock).Every Grammar.LooksFirst :=
    .leaf trivial rfl
  have hrun : ((brackets.parser 4 (.deferred "brackets")).run stream {}).ending
      = .done (.failure failure) := rfl
  exact ⟨hrun, found_is_next_of_remainder hdefs hg 4 stream {} hrun⟩

end Tokenwise
