import Tokenwise.Proofs.Failure.Found
import Tokenwise.Proofs.Stream.Tokens

/-!
# What a failure has found is not what it asks for

A failure that lists what would have matched must not list what it has found.  No
matcher's failure does: a token that it lists is one that it would have taken, and a
literal is found to differ in one character (`FailureLaw.listsOthers_holdsFor_literal`).

A merge lists what two failures have asked for and reports what the second one has
found.  If both lie at one place, they have found the same, and neither list has it
(`Failure.listsOthers_merge`).  If they lie apart, the first one has asked for something
at its own place, and there is nothing to keep this from being found at the other one.  Only a
mark brings such failures together, whichever side has it.

So the statement is for grammars whose choices merge in place, wherever in the text they are
made (`Grammar.MergesInPlace`).  Marks may well have an effect there, as on a sequence that is
tried before another one with the same first token (`Grammar.mergesInPlace_of_common_token`).
-/

namespace Tokenwise

variable {Op : Type}

namespace Failure

variable {left right failure : Failure (Value Op)}

/-- What was found depends on the remainder only. -/
theorem FoundNext.actual_eq (hleft : left.FoundNext) (hright : right.FoundNext)
    (hplace : left.remainder = right.remainder) : left.actual = right.actual := by
  obtain ⟨next, hpeek, hactual⟩ := hleft
  obtain ⟨other, hother, hotherActual⟩ := hright
  rw [hplace, hother] at hpeek
  cases hpeek
  rw [hactual, hotherActual]

/-- Whether a failure that lists what would have matched has looked at the next token
and lists nothing that equals it. -/
def ListsOthers (failure : Failure (Value Op)) : Prop :=
  ∀ {items : List (Value Op)}, failure.expected = .described ⟨.oneOf, items⟩ →
    failure.FoundNext ∧ ∀ item ∈ items, (failure.actual == item) = false

theorem listsOthers_mismatch {labels : List (Value Op)} {found : Option (Value Op)}
    {here : Stream (Value Op)} (hpeek : here.peek = .ok found)
    (hothers : ∀ label ∈ labels, (found.getD .endOfInput == label) = false) :
    (Parser.mismatch .oneOf labels {} found here).ListsOthers := by
  intro items hexpected
  cases hexpected
  refine ⟨foundNext_mismatch hpeek, ?_⟩
  intro item hitem
  exact hothers item (mem_of_mem_distinct hitem)

/-- What a merged failure lists are the items of the second one, or of both. -/
theorem expected_merge_cases {d : Descriptor (Value Op)}
    (h : (left.merge right).expected = .described d) :
    right.expected = .described d
      ∨ ∃ before after, left.expected = .described ⟨d.kind, before⟩
        ∧ right.expected = .described ⟨d.kind, after⟩ ∧ d.items = distinct (before ++ after) := by
  unfold merge at h
  split at h
  case h_1 first second hfirst hsecond =>
    by_cases hkind : first.kind = second.kind
    · rw [if_pos hkind] at h
      cases h
      refine .inr ⟨first.items, second.items, hfirst, ?_, rfl⟩
      rw [hsecond]
      exact hkind ▸ rfl
    · rw [if_neg hkind] at h
      exact .inl h
  case h_2 => exact .inl h

/-- Failures at one place keep to others when they are merged. -/
theorem listsOthers_merge (hleft : left.ListsOthers) (hright : right.ListsOthers)
    (hplace : left.remainder = right.remainder) : (left.merge right).ListsOthers := by
  intro items hexpected
  rw [actual_merge]
  obtain hsecond | ⟨before, after, hfirst, hsecond, hitems⟩ := expected_merge_cases hexpected
  · obtain ⟨hnext, hothers⟩ := hright hsecond
    exact ⟨foundNext_merge hnext, hothers⟩
  · obtain ⟨hleftNext, hleftOthers⟩ := hleft hfirst
    obtain ⟨hrightNext, hrightOthers⟩ := hright hsecond
    have hsame : left.actual = right.actual := hleftNext.actual_eq hrightNext hplace
    refine ⟨foundNext_merge hrightNext, ?_⟩
    intro item hitem
    obtain rfl : items = distinct (before ++ after) := hitems
    obtain hbefore | hafter := List.mem_append.mp (mem_of_mem_distinct hitem)
    · rw [← hsame]
      exact hleftOthers item hbefore
    · exact hrightOthers item hafter

end Failure

/-- Whether a stream is a view of the text from a position in it, or from its end. -/
def Stream.InText (stream : Stream (Value Op)) (chars : List Char) : Prop :=
  stream.source = .whole (.text chars) ∧ 0 ≤ stream.position ∧ stream.position ≤ chars.length

namespace Stream.InText

variable {stream finish : Stream (Value Op)} {chars : List Char}

theorem inside (h : stream.InText chars) : stream.Inside chars.length :=
  ⟨congrArg Source.size h.1, h.2.2⟩

theorem onward (h : stream.InText chars) (hleads : stream.LeadsTo finish) :
    finish.InText chars := by
  have hon : stream.Onward chars.length finish := hleads.2 _ h.inside
  exact ⟨hon.source.trans h.1, Int.le_trans h.2.1 hon.forward, hon.inside⟩

end Stream.InText

/-- In a text and without a name, the items that a failure lists are other than what it
has found, as long as failures are only merged at one place. -/
def FailureLaw.listsOthers (Op : Type) (chars : List Char) : FailureLaw Op where
  Holds failure := failure.ListsOthers
  Reads stream := stream.InText chars
  Told context := context = {}
  Apart := False
  reads_onward := Stream.InText.onward
  told_nameless := rfl
  merge := fun hleft hright hplace =>
    Failure.listsOthers_merge hleft hright (hplace.resolve_left id)

namespace FailureLaw

variable {chars : List Char}

theorem listsOthers_holdsFor_satisfying {test : Value Op → Bool} {labels : List (Value Op)}
    (hend : ∀ label ∈ labels, (Value.endOfInput == label) = false)
    (htest : ∀ token, test token = false → ∀ label ∈ labels, (token == label) = false) :
    (listsOthers Op chars).HoldsFor (.satisfying test .oneOf labels) := by
  intro stream context failure _ htold hfails
  obtain rfl : context = {} := htold
  obtain ⟨found, hpeek, hfound, rfl⟩ := Parser.fails_satisfying_iff.mp hfails
  refine Failure.listsOthers_mismatch hpeek ?_
  cases found with
  | none => exact hend
  | some token =>
      have hrefused : test token = false := by simpa [Option.filter] using hfound
      exact htest token hrefused

/-- A matcher that reports what would not have matched asks for nothing. -/
theorem listsOthers_holdsFor_excluding (test : Value Op → Bool) (labels : List (Value Op)) :
    (listsOthers Op chars).HoldsFor (.satisfying test .noneOf labels) := by
  intro stream context failure _ _ hfails
  obtain ⟨found, -, -, rfl⟩ := Parser.fails_satisfying_iff.mp hfails
  intro items hexpected
  cases hexpected

/-- A literal that differs from a character somewhere is not this character. -/
theorem singleton_ne_of_toList_eq {s : String} {before after : List Char} {c d : Char}
    (hs : s.toList = before ++ c :: after) (hdc : d ≠ c) : String.singleton d ≠ s := by
  rintro rfl
  rw [String.toList_singleton] at hs
  cases before with
  | nil => exact hdc (List.cons.inj hs).1
  | cons e before => simp at hs

/-- Where a literal differs, a character is found, and it is not the whole literal.  In a
list of texts it could be. -/
theorem listsOthers_holdsFor_literal (s : String) : (listsOthers Op chars).HoldsFor (.literal s) := by
  intro stream context failure hreads htold hfails
  obtain rfl : context = {} := htold
  obtain ⟨before, c, after, hliteral, here, found, hhere, hpeek, hdiffers, rfl⟩ :=
    Parser.exists_mismatch_of_fails_literalFrom hfails
  refine Failure.listsOthers_mismatch hpeek ?_
  intro label hlabel
  obtain rfl := List.mem_singleton.mp hlabel
  cases found with
  | none => rfl
  | some token =>
      have hbase : here.source.base = .text chars := by
        rw [Stream.source_of_advance hhere, hreads.1]
        rfl
      obtain ⟨d, rfl⟩ := Stream.exists_char_of_peek hbase hpeek
      have hdc : d ≠ c := by
        rintro rfl
        change (Value.text (String.singleton d) == Value.text (String.singleton d)) = false
          at hdiffers
        rw [Value.text_beq_text, beq_self_eq_true] at hdiffers
        cases hdiffers
      change (Value.text (String.singleton d) == Value.text s) = false
      rw [Value.text_beq_text, beq_eq_false_iff_ne]
      exact singleton_ne_of_toList_eq hliteral hdc

end FailureLaw

variable [Operations Op]

/-- Whether failures that a choice between two grammars merges lie at one position, wherever in
the text the choice is made and however deep names are unfolded.  The grammars stand for what
they are among the definitions. -/
def Grammar.MergesInPlace (definitions : Definitions Op) (chars : List Char)
    (g h : Grammar Op) : Prop :=
  ∀ (fuel limit : Nat) (stream : Stream (Value Op)), stream.InText chars →
    (g.parser (definitions.resolve fuel) limit).MergesInPlace
      (h.parser (definitions.resolve fuel) limit) stream {}

/-- Whether a part looks for tokens, under no name, and merges in place if it is a choice: its
two operands, or each of its alternatives with those before it. -/
def Grammar.AsksInPlace (definitions : Definitions Op) (chars : List Char) : Grammar Op → Prop
  | token expected => expected ≠ .endOfInput
  | oneOf choices => .endOfInput ∉ choices
  | orElse g h => MergesInPlace definitions chars g h
  | alternatives gs => ∀ before h after, gs = before ++ h :: after → before ≠ [] →
      MergesInPlace definitions chars (alternatives before) h
  | fail _ _ | named _ _ | namedIfAbsent _ _ | custom _ => False
  | _ => True

variable {definitions : Definitions Op} {chars : List Char}

theorem Grammar.MergesInPlace.allowed {g h : Grammar Op}
    (hmerges : MergesInPlace definitions chars g h) (fuel limit : Nat) :
    (FailureLaw.listsOthers Op chars).AllowsMerging (g.parser (definitions.resolve fuel) limit)
      (h.parser (definitions.resolve fuel) limit) := by
  refine .inr ?_
  intro stream context hreads htold
  obtain rfl : context = {} := htold
  exact hmerges fuel limit stream hreads

theorem Grammar.AsksInPlace.permitted {part : Grammar Op}
    (h : part.AsksInPlace definitions chars) :
    (FailureLaw.listsOthers Op chars).Permits definitions part := by
  cases part with
  | token expected =>
      refine FailureLaw.listsOthers_holdsFor_satisfying ?_ ?_
      · intro label hlabel
        obtain rfl := List.mem_singleton.mp hlabel
        exact Value.endOfInput_beq_eq_false h
      · intro token hrefused label hlabel
        obtain rfl := List.mem_singleton.mp hlabel
        exact hrefused
  | oneOf choices =>
      refine FailureLaw.listsOthers_holdsFor_satisfying ?_ ?_
      · intro label hlabel
        refine Value.endOfInput_beq_eq_false ?_
        rintro rfl
        exact h hlabel
      · intro token hrefused label hlabel
        have hnone : choices.any (token == ·) = false := by
          rw [← List.contains_eq_any_beq]
          exact hrefused
        exact Bool.eq_false_iff.mpr (List.any_eq_false.mp hnone label hlabel)
  | notToken unexpected => exact FailureLaw.listsOthers_holdsFor_excluding _ _
  | noneOf excluded => exact FailureLaw.listsOthers_holdsFor_excluding _ _
  | literal s => exact FailureLaw.listsOthers_holdsFor_literal s
  | orElse g k => exact MergesInPlace.allowed h
  | alternatives gs =>
      refine ⟨?_, fun before k after hsplit hfirst => (h before k after hsplit hfirst).allowed⟩
      intro _ stream context failure _ _ hfails items hexpected
      cases hfails
      cases hexpected
  | notAhead g =>
      intro stream _ output items hexpected
      cases hexpected
  | fail expected actual => exact h.elim
  | named g name => exact h.elim
  | namedIfAbsent g name => exact h.elim
  | custom p => exact h.elim
  | _ => trivial

end Tokenwise
