import Tokenwise.Parser.Probe
import Tokenwise.Proofs.Parser.Simulation

/-!
# Names are labels and nothing else

A name is set in the context, replaced, defaulted or cleared on the way down, and
the matchers put it in place of the labels that they would report.  It is read
nowhere else, and what it changes is never looked at: choice, repetition and
lookahead tell a success from a failure and ask where the failure lies, and merging
asks of which kind the descriptors are.

Two replies that differ in labels only (`Reply.SameButLabels`) succeed with one
output and one remainder, or fail at one place, with the same found there and with
an expected of the same kind.  So two runs on one stream are compared in any two
contexts (`Simulation.relabelled`).  Merged failures do not break it, as the kind that
is expected after a merge is that of the second failure (`Failure.kind_merge`).
-/

namespace Tokenwise

variable {Op : Type}

/-- Two runs on one stream, in any two contexts, report something of one kind. -/
def Simulation.relabelled : Simulation Op where
  Begin := Eq
  Reach _ _ := Eq
  Contexts _ _ := True
  Reports expected other := expected.kind = other.kind
  refl := id
  trans := fun _ _ hsecond => hsecond
  again := fun _ hreach => hreach
  position_eq_iff := by
    intro s t finish last hbegin hreach
    rw [hbegin, hreach]
  peek_eq := congrArg Stream.peek
  advance := by
    intro s t hbegin amount
    rw [hbegin]
    exact .self fun _ _ => rfl
  contexts_refl := fun _ => trivial
  contexts_default := fun _ _ => trivial
  labels := fun _ _ _ => rfl
  reports_refl := fun _ => rfl
  merge := by
    intro left otherLeft right otherRight _ hright
    rw [Failure.kind_merge, Failure.kind_merge, hright]

/-- Whether two replies are the same success, or failures at one place, with the same
found there, that expect something of one kind. -/
inductive Reply.SameButLabels {α : Type} : Reply Op α → Reply Op α → Prop
  | success (output : α) (remainder : Stream (Value Op)) :
      SameButLabels (.success output remainder) (.success output remainder)
  | failure {failure other : Failure (Value Op)}
      (hkind : failure.expected.kind = other.expected.kind)
      (hactual : failure.actual = other.actual) (hremainder : failure.remainder = other.remainder) :
      SameButLabels (.failure failure) (.failure other)

theorem Simulation.Replies.sameButLabels {α : Type} {s t : Stream (Value Op)}
    {reply other : Reply Op α} (h : relabelled.Replies s t reply other) :
    reply.SameButLabels other := by
  cases h with
  | @success output finish last hreach =>
      obtain rfl : finish = last := hreach
      exact .success output finish
  | failure h => exact .failure h.expected h.actual h.reach

/-- Whether a parser does the same in all contexts. -/
def Parser.IgnoresContext (p : Parser Op) : Prop :=
  ∀ (stream : Stream (Value Op)) (context other : Context),
    p.run stream context = p.run stream other

/-- A parser that ignores the context has nothing to put a label in. -/
theorem Parser.IgnoresContext.respects {p : Parser Op} (hp : p.IgnoresContext) :
    Simulation.relabelled.Respects p := by
  intro s t context other hbegin _
  rw [hbegin, hp t context other]
  refine .self fun reply _ => ?_
  cases reply with
  | success output remainder => exact .success output rfl
  | failure failure => exact .failure ⟨rfl, rfl, rfl⟩

/-- **A name never changes what is parsed.**  Among any definitions, take a grammar
in which no parser of the user's own depends on the context.  On every stream its runs
in any two contexts both succeed, with one output and one remainder, or both fail, at
one place, with the same found there and with an expected of one kind, or both raise
the same fault. -/
theorem Definitions.names_change_labels_only [Operations Op]
    {definitions : Definitions Op} {g : Grammar Op}
    (hdefs : definitions.Every fun part => ∀ p, part = .custom p → p.IgnoresContext)
    (hg : g.Every fun part => ∀ p, part = .custom p → p.IgnoresContext)
    (fuel : Nat) (stream : Stream (Value Op)) (context other : Context) :
    ((definitions.parser fuel g).run stream context).Agree Reply.SameButLabels
      ((definitions.parser fuel g).run stream other) := by
  have hbuilt : (definitions.parser fuel g).Built Parser.IgnoresContext :=
    definitions.parser_built hdefs hg fuel
  have hrespects : Simulation.relabelled.Respects (definitions.parser fuel g) :=
    hbuilt.respects fun _ h => h.respects
  refine (hrespects rfl trivial).mono ?_
  intro reply second hreply
  exact hreply.sameButLabels

/-- Whether what comes first is named or not, it is missing at the same place.  The
position of what follows is asked for by a parser that ignores the context. -/
theorem Definitions.named_brackets_change_labels_only :
    let g : Grammar Stock :=
      .keepRight (.token (.char '-')) (.keepLeft (.deferred "brackets") (.custom .position))
    let stream : Stream (Value Stock) := ⟨.whole (.text ['(', ')']), 0⟩
    ((brackets.parser 3 g).run stream {}).Agree Reply.SameButLabels
      ((brackets.parser 3 g).run stream ⟨some "dash"⟩) := by
  intro g stream
  have hg : g.Every fun part => ∀ p, part = .custom p → p.IgnoresContext := by
    refine .pair nofun rfl (.leaf nofun rfl) ?_
    refine .pair nofun rfl (.leaf nofun rfl) (.leaf ?_ rfl)
    intro p hp stream context other
    cases hp
    rfl
  have hdefs : brackets.Every fun part => ∀ p, part = .custom p → p.IgnoresContext :=
    every_brackets fun _ hpart p hp => absurd hp (hpart p)
  exact names_change_labels_only hdefs hg 3 stream {} ⟨some "dash"⟩

end Tokenwise
