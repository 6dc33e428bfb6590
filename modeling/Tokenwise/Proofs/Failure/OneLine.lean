import Tokenwise.Proofs.Failure.Asked
import Tokenwise.Proofs.Text.OneLine

/-!
# Messages on one line

The message of a failure names what was expected and what was found, and it is meant to be
one line.  It is put together from the texts of tokens and labels, so it is one line if
these are (`Failure.NamesOneLine.message`).

For the failures of a parser this is enough.  They have found a character, the end of the
input or a marker, whatever the text, and what they expect are the labels that stand in the
grammar.  So the statement is a `FailureLaw` that permits all parts whose labels are shown on
one line (`FailureLaw.oneLine`).

The failure of a parse that has left a part of the text is another matter.  What is left is
shown as a whole, and as it stands: a line break in it is named only if there is nothing else
left.  `Definitions.message_one_line_iff` has both.
-/

namespace Tokenwise

variable {Op : Type}

namespace Failure

section Message

variable [ToString Op] {failure left right : Failure (Value Op)}

/-- A message names what was found, after what was expected if that is known. -/
theorem message_eq (failure : Failure (Value Op)) :
    failure.message = do
      let found ← failure.actual.displayActual
      match failure.expected with
      | .unknown => return "unexpected " ++ found
      | .endOfInput => return "expected end of input, but found " ++ found
      | .described d =>
          return "expected " ++ (← Value.plainDescriptor d) ++ ", but found " ++ found := by
  rcases failure with ⟨expected, actual, remainder, mark⟩
  cases actual <;> cases expected <;> rfl

/-- Whether what a failure has found is shown on one line, and so are all the items it
expects. -/
structure NamesOneLine (failure : Failure (Value Op)) : Prop where
  found : ∃ written, failure.actual.displayActual = .ok written ∧ OneLine written
  items : ∀ d, failure.expected = .described d → ∀ item ∈ d.items, item.OneLine

/-- A message is one line if it names what is. -/
theorem NamesOneLine.message (h : failure.NamesOneLine) :
    ∃ message, failure.message = .ok message ∧ OneLine message := by
  have hunexpected : OneLine "unexpected " := by decide
  have hend : OneLine "expected end of input, but found " := by decide
  have hexpected : OneLine "expected " := by decide
  have hbut : OneLine ", but found " := by decide
  obtain ⟨found, hfound, hline⟩ := h.found
  rw [message_eq, hfound]
  cases hcase : failure.expected with
  | unknown => exact ⟨_, rfl, oneLine_append_iff.mpr ⟨hunexpected, hline⟩⟩
  | endOfInput => exact ⟨_, rfl, oneLine_append_iff.mpr ⟨hend, hline⟩⟩
  | described d =>
      obtain ⟨labels, hlabels, hitems⟩ := Value.exists_plainDescriptor_of_oneLine (h.items d hcase)
      refine ⟨"expected " ++ labels ++ ", but found " ++ found, ?_, ?_⟩
      · simp only [bind, Except.bind, hlabels]
        rfl
      · simp only [oneLine_append_iff]
        exact ⟨⟨⟨hexpected, hitems⟩, hbut⟩, hline⟩

theorem namesOneLine_merge (hleft : left.NamesOneLine) (hright : right.NamesOneLine) :
    (left.merge right).NamesOneLine where
  found := by
    rw [actual_merge]
    exact hright.found
  items := by
    intro d hd item hitem
    obtain hsecond | ⟨before, after, hfirst, hsecond, hitems⟩ := expected_merge_cases hd
    · exact hright.items d hsecond item hitem
    · rw [hitems] at hitem
      obtain hbefore | hafter := List.mem_append.mp (mem_of_mem_distinct hitem)
      · exact hleft.items _ hfirst item hbefore
      · exact hright.items _ hsecond item hafter

end Message

end Failure

section Law

variable [Operations Op]

/-- Over a text, and under names that are shown on one line, failures name what is shown
on one line and do not expect the end of the input. -/
def FailureLaw.oneLine (Op : Type) [Operations Op] : FailureLaw Op where
  Holds failure := failure.NamesOneLine ∧ failure.expected.kind ≠ some none
  Reads stream := ∃ chars, stream.source.base = .text chars
  Told context := ∀ name ∈ context.name, (Value.text name : Value Op).OneLine
  Apart := True
  reads_onward := fun hreads honward => honward.1.symm ▸ hreads
  told_nameless := nofun
  merge := by
    intro left right hleft hright _
    refine ⟨Failure.namesOneLine_merge hleft.1 hright.1, ?_⟩
    rw [Failure.kind_merge]
    exact hright.2

namespace FailureLaw

/-- A matcher has found a character or the end of the text, and it expects its labels or
the name. -/
theorem oneLine_mismatch {kind : Descriptor.Kind} {labels : List (Value Op)} {context : Context}
    {found : Option (Value Op)} {here : Stream (Value Op)}
    (hreads : (oneLine Op).Reads here) (htold : (oneLine Op).Told context)
    (hlabels : ∀ label ∈ labels, label.OneLine) (hpeek : here.peek = .ok found) :
    (oneLine Op).Holds (Parser.mismatch kind labels context found here) := by
  obtain ⟨chars, htext⟩ := hreads
  refine ⟨⟨?_, ?_⟩, nofun⟩
  · cases found with
    | none => exact ⟨"end of input", rfl, by decide⟩
    | some token =>
        obtain ⟨c, rfl⟩ := Stream.exists_char_of_peek htext hpeek
        have hchar : (Value.char c : Value Op).OneLine := Value.oneLine_char c
        exact hchar
  · intro d hd item hitem
    cases hd
    have hlabel : item ∈ context.labelsOr .text labels := mem_of_mem_distinct hitem
    rcases context with ⟨name⟩
    cases name with
    | none => exact hlabels item hlabel
    | some name =>
        obtain rfl := List.mem_singleton.mp hlabel
        exact htold name rfl

theorem oneLine_holdsFor_satisfying (test : Value Op → Bool) (kind : Descriptor.Kind)
    {labels : List (Value Op)} (hlabels : ∀ label ∈ labels, label.OneLine) :
    (oneLine Op).HoldsFor (.satisfying test kind labels) := by
  intro stream context failure hreads htold hfails
  obtain ⟨found, hpeek, -, rfl⟩ := Parser.fails_satisfying_iff.mp hfails
  exact oneLine_mismatch hreads htold hlabels hpeek

theorem oneLine_holdsFor_literal {s : String} (hs : (Value.text s : Value Op).OneLine) :
    (oneLine Op).HoldsFor (.literal s) := by
  intro stream context failure hreads htold hfails
  obtain ⟨before, c, after, -, here, found, hhere, hpeek, -, rfl⟩ :=
    Parser.exists_mismatch_of_fails_literalFrom hfails
  have hsource : here.source = stream.source := Stream.source_of_advance hhere
  have hhere : (oneLine Op).Reads here := by
    obtain ⟨chars, htext⟩ := hreads
    exact ⟨chars, hsource ▸ htext⟩
  exact oneLine_mismatch hhere htold (List.forall_mem_singleton.mpr hs) hpeek

/-- A choice among no parsers reports a marker. -/
theorem oneLine_holdsFor_fail : (oneLine Op).HoldsFor .fail := by
  intro stream context failure _ _ hfails
  cases hfails
  exact ⟨⟨⟨"usage of fail()", rfl, by decide⟩, nofun⟩, nofun⟩

end FailureLaw

/-- Whether the labels of a part are shown on one line, and it reports neither what its user
likes nor an output. -/
def Grammar.LabelsOneLine : Grammar Op → Prop
  | token v | notToken v => v.OneLine
  | oneOf vs | noneOf vs => ∀ v ∈ vs, v.OneLine
  | literal s | named _ s | namedIfAbsent _ s => (Value.text s : Value Op).OneLine
  | fail _ _ | notAhead _ | custom _ => False
  | _ => True

theorem Grammar.LabelsOneLine.permitted {part : Grammar Op} (h : part.LabelsOneLine)
    (definitions : Definitions Op) : (FailureLaw.oneLine Op).Permits definitions part := by
  cases part with
  | token expected =>
      exact FailureLaw.oneLine_holdsFor_satisfying _ _ (List.forall_mem_singleton.mpr h)
  | notToken unexpected =>
      exact FailureLaw.oneLine_holdsFor_satisfying _ _ (List.forall_mem_singleton.mpr h)
  | oneOf choices => exact FailureLaw.oneLine_holdsFor_satisfying _ _ h
  | noneOf excluded => exact FailureLaw.oneLine_holdsFor_satisfying _ _ h
  | literal s => exact FailureLaw.oneLine_holdsFor_literal h
  | alternatives gs =>
      refine ⟨fun _ => FailureLaw.oneLine_holdsFor_fail, ?_⟩
      intro before k after hsplit hfirst fuel limit
      exact .inl trivial
  | orElse g k => exact fun _ _ => .inl trivial
  | named g name =>
      intro other hother
      cases hother
      exact h
  | namedIfAbsent g name =>
      intro context htold other hother
      cases hother
      cases hname : context.name with
      | none => exact h
      | some outer => exact htold outer hname
  | fail expected actual => exact h.elim
  | notAhead g => exact h.elim
  | custom p => exact h.elim
  | _ => trivial

/-- Whether a failure is that of a parse which has left a text with a line break in it,
and more than this line break. -/
def Failure.LeavesLines (failure : Failure (Value Op)) : Prop :=
  failure.expected = .endOfInput ∧ ∃ trailing, failure.remainder.rest = .text trailing
    ∧ '\n' ∈ trailing ∧ trailing ≠ ['\n']

/-- The message about a text that is left shows it as a whole. -/
theorem Failure.message_of_trailing_text (chars : List Char) (position : Int) :
    let remainder : Stream (Value Op) := ⟨.whole (.text chars), position⟩
    let failure : Failure (Value Op) :=
      { expected := .endOfInput, actual := .stream remainder, remainder }
    ∃ message, failure.message = .ok message ∧ (OneLine message ↔ ¬ failure.LeavesLines) := by
  intro remainder failure
  let trailing : List Char := Slice.drop chars position
  have hmessage : failure.message
      = .ok ("expected end of input, but found " ++ CharClass.shown (String.ofList trailing)) := rfl
  have hend : OneLine "expected end of input, but found " := by decide
  have hleaves : failure.LeavesLines ↔ '\n' ∈ trailing ∧ trailing ≠ ['\n'] := by
    constructor
    · rintro ⟨-, other, hother, hlines⟩
      cases hother
      exact hlines
    · intro hlines
      exact ⟨rfl, trailing, rfl, hlines⟩
  have hbreak : String.ofList trailing = "\n" ↔ trailing = ['\n'] := by
    rw [← String.toList_inj, String.toList_ofList]
    rfl
  refine ⟨_, hmessage, ?_⟩
  rw [oneLine_append_iff, and_iff_right hend, CharClass.oneLine_shown_iff, hbreak, hleaves, OneLine,
    String.toList_ofList]
  grind

end Law

namespace Definitions

variable [Operations Op] {definitions : Definitions Op} {g : Grammar Op}

/-- **When a message is one line.**  Take any definitions and a grammar without parsers of the
user's own, and let it parse a whole text and fail, the failure not being an output of its
own.  If it is the grammar that has failed, let all labels in it and in the definitions be shown
on one line, and let nothing in them report what its user likes or an output.  Then
the failure has a message, and this is one line unless a text has been left that has a line break
in it and is more than the line break. -/
theorem message_one_line_iff (hdefs : definitions.Every fun part => ∀ p, part ≠ .custom p)
    (hg : g.Every fun part => ∀ p, part ≠ .custom p) (fuel : Nat) {chars : List Char}
    {failure : Failure (Value Op)}
    (hparse : ((definitions.parser fuel g).parse (.whole (.text chars))).ending
      = .done (.failure failure))
    (houtput : ∀ remainder, ¬ (definitions.parser fuel g).Matches ⟨.whole (.text chars), 0⟩ {}
      (.failure failure) remainder)
    (hlabels : (definitions.parser fuel g).Fails ⟨.whole (.text chars), 0⟩ {} failure →
      definitions.Every Grammar.LabelsOneLine ∧ g.Every Grammar.LabelsOneLine) :
    ∃ message, failure.message = .ok message ∧ (OneLine message ↔ ¬ failure.LeavesLines) := by
  obtain hfails | ⟨remainder, hmatches⟩ | ⟨output, remainder, hmatches, rfl⟩ :=
    Parser.fails_or_of_parse_ending_eq_failure hparse
  · obtain ⟨hdefsLabels, hgLabels⟩ := hlabels hfails
    obtain ⟨hnames, hasks⟩ : (FailureLaw.oneLine Op).Holds failure :=
      (FailureLaw.oneLine Op).holds_of_fails
        (fun entry hentry => (hdefsLabels entry hentry).mono fun _ hpart => hpart.permitted definitions)
        (hgLabels.mono fun _ hpart => hpart.permitted definitions) ⟨chars, rfl⟩
        (FailureLaw.oneLine Op).told_nameless hfails
    obtain ⟨message, hmessage, hline⟩ := hnames.message
    refine ⟨message, hmessage, iff_of_true hline ?_⟩
    rintro ⟨hend, -⟩
    exact hasks (congrArg Expected.kind hend)
  · exact absurd hmatches (houtput remainder)
  · have hbuilt : (definitions.parser fuel g).Built fun _ => False :=
      definitions.parser_built hdefs hg fuel
    have hrespects : Course.sameSource.simulation.Respects (definitions.parser fuel g) :=
      hbuilt.respects fun _ h => h.elim
    have hsource : remainder.source = .whole (.text chars) := hrespects.source_eq hmatches
    rcases remainder with ⟨source, position⟩
    obtain rfl : source = .whole (.text chars) := hsource
    exact Failure.message_of_trailing_text chars position

/-- A line break that is looked for goes by its name, beside the name of a literal. -/
theorem named_line_break_in_message :
    let g : Grammar Stock := .keepRight (.token (.char 'a'))
      (.orElse (.token (.char '\n')) (.named (.literal "end") "last word"))
    let input : Source (Value Stock) := .whole (.text ['a', '\t'])
    let failure : Failure (Value Stock) :=
      { expected := .described ⟨.oneOf, [.char '\n', .text "last word"]⟩, actual := .char '\t'
        remainder := ⟨input, 1⟩ }
    (((Definitions.mk []).parser 1 g).parse input).ending = .done (.failure failure)
      ∧ failure.message = .ok "expected line break or last word, but found tab"
      ∧ ∃ message, failure.message = .ok message ∧ (OneLine message ↔ ¬ failure.LeavesLines) := by
  intro g input failure
  have hparse : (((Definitions.mk []).parser 1 g).parse input).ending = .done (.failure failure) :=
    rfl
  have hrun : ((Definitions.mk []).parser 1 g).Fails ⟨input, 0⟩ {} failure := rfl
  have houtput : ∀ remainder, ¬ ((Definitions.mk []).parser 1 g).Matches ⟨input, 0⟩ {}
      (.failure failure) remainder := by
    intro remainder hmatches
    cases hrun.symm.trans hmatches
  have hdefs : ∀ {property}, (Definitions.mk [] : Definitions Stock).Every property := nofun
  have hlabels : g.Every Grammar.LabelsOneLine := by
    refine .pair trivial rfl (.leaf (Value.oneLine_char 'a') rfl) ?_
    refine .pair trivial rfl (.leaf (Value.oneLine_char '\n') rfl) ?_
    refine .only (Value.oneLine_text_iff.mpr (.inl (by decide))) rfl ?_
    exact .leaf (Value.oneLine_text_iff.mpr (.inl (by decide))) rfl
  have hg : g.Every fun part => ∀ p, part ≠ .custom p := hlabels.ne_custom fun _ => id
  exact ⟨hparse, rfl, message_one_line_iff hdefs hg 1 hparse houtput fun _ => ⟨hdefs, hlabels⟩⟩

/-- No label has a line break, but the message shows the one in the text that is left. -/
theorem trailing_lines_in_message :
    let g : Grammar Stock := .token (.char 'a')
    let input : Source (Value Stock) := .whole (.text ['a', 'b', '\n', 'c'])
    let failure : Failure (Value Stock) :=
      { expected := .endOfInput, actual := .stream ⟨input, 1⟩, remainder := ⟨input, 1⟩ }
    g.Every Grammar.LabelsOneLine
      ∧ (((Definitions.mk []).parser 1 g).parse input).ending = .done (.failure failure)
      ∧ failure.message = .ok "expected end of input, but found b\nc"
      ∧ ¬ OneLine "expected end of input, but found b\nc" := by
  intro g input failure
  exact ⟨.leaf (Value.oneLine_char 'a') rfl, rfl, rfl, by decide⟩

end Definitions

end Tokenwise
