import Tokenwise.Proofs.Grammar.Built
import Tokenwise.Proofs.Run.Agreement

/-!
# Comparing two runs of one parser

That the remaining tokens alone decide a parse, that a name changes nothing but
labels, that no position is left behind: each compares two runs of one parser, which
begin at different streams or in different contexts, or are the same run twice.  To
prove one of them combinator by combinator is long, and what the combinators need
for it is always the same.  It is done here once.

A `Simulation` says where two runs may begin and where they may have come to from
there, which is their `Course`, in which contexts, and what they may report as expected.
Its laws speak of the matchers and of positions: the next token is the same on both
sides, advancing comes to places that may be come to, and one side is back at the start
just when the other one is.  Two replies are then related if both succeed with one
output or both fail with the same found, at places that the two sides may have come to
(`Simulation.Replies`).

A parser **respects** the simulation if all runs that may be compared end alike, with
related replies.  The one theorem is `Parser.Built.respects`: whatever is put together
from parsers that respect a simulation respects it, as the combinators branch on
nothing that a simulation lets differ.
-/

namespace Tokenwise

variable {Op : Type}

/-- The stream that a reply leaves: the input after an output, or the input at a
mismatch. -/
def Reply.remainder {α : Type} : Reply Op α → Stream (Value Op)
  | .success _ remainder => remainder
  | .failure f => f.remainder

/-- What a merged failure expects depends only on what the two failures expect. -/
theorem Failure.expected_merge_congr {left otherLeft right otherRight : Failure (Value Op)}
    (hleft : left.expected = otherLeft.expected) (hright : right.expected = otherRight.expected) :
    (left.merge right).expected = (otherLeft.merge otherRight).expected := by
  unfold Failure.merge
  rw [hleft, hright]
  split
  · split
    · rfl
    · exact hright
  · exact hright

/-- Where two runs of one parser may begin, and where they may have come to from
there. -/
structure Course (Op : Type) where
  Begin : Stream (Value Op) → Stream (Value Op) → Prop
  Reach : Stream (Value Op) → Stream (Value Op) → Stream (Value Op) → Stream (Value Op) → Prop
  -- runs may stay where they begin, go on in two goes, and begin again on the way
  refl : ∀ {s t}, Begin s t → Reach s t s t
  trans : ∀ {s t middle other finish last}, Begin s t → Reach s t middle other →
    Reach middle other finish last → Reach s t finish last
  again : ∀ {s t finish last}, Begin s t → Reach s t finish last → Begin finish last
  -- the one run is back at its start just when the other one is
  position_eq_iff : ∀ {s t finish last}, Begin s t → Reach s t finish last →
    (finish.position = s.position ↔ last.position = t.position)
  -- matchers find the same token, and advance to where the runs may come to
  peek_eq : ∀ {s t}, Begin s t → s.peek = t.peek
  advance : ∀ {s t}, Begin s t → ∀ amount : Nat,
    (liftM (s.advance amount) : Run Op (Stream (Value Op))).Agree (Reach s t)
      (liftM (t.advance amount) : Run Op (Stream (Value Op)))

/-- A way to compare two runs of one parser: the course of them, the contexts in which
they may run, and what they may report as expected. -/
structure Simulation (Op : Type) extends Course Op where
  Contexts : Context → Context → Prop
  Reports : Expected (Value Op) → Expected (Value Op) → Prop
  -- a name that is set or cleared is so on both sides, and so is a default
  contexts_refl : ∀ context, Contexts context context
  contexts_default : ∀ {context other}, Contexts context other → ∀ name,
    Contexts (context.withDefaultName name) (other.withDefaultName name)
  -- reported are the labels of a matcher or the names in the contexts, the same on
  -- both sides, or what is merged from them
  labels : ∀ {context other}, Contexts context other → ∀ kind items,
    Reports (.described (.ofItems kind (context.labelsOr .text items)))
      (.described (.ofItems kind (other.labelsOr .text items)))
  reports_refl : ∀ expected, Reports expected expected
  merge : ∀ {left otherLeft right otherRight : Failure (Value Op)},
    Reports left.expected otherLeft.expected → Reports right.expected otherRight.expected →
      Reports (left.merge right).expected (otherLeft.merge otherRight).expected

/-- Both runs of a course in one context, which report the same. -/
def Course.simulation (course : Course Op) : Simulation Op where
  toCourse := course
  Contexts := Eq
  Reports := Eq
  contexts_refl := fun _ => rfl
  contexts_default := fun hcontext name => congrArg (Context.withDefaultName · name) hcontext
  labels := by
    intro context other hcontext kind items
    rw [hcontext]
  reports_refl := fun _ => rfl
  merge := Failure.expected_merge_congr

namespace Simulation

variable (sim : Simulation Op) {α β : Type} {s t : Stream (Value Op)}

/-- Whether two failures have found the same, at places that may be come to, and
report what may be reported. -/
structure Failures (s t : Stream (Value Op)) (failure other : Failure (Value Op)) : Prop where
  expected : sim.Reports failure.expected other.expected
  actual : failure.actual = other.actual
  reach : sim.Reach s t failure.remainder other.remainder

/-- Whether two replies are related: successes with one output, at places that may
be come to, or failures. -/
inductive Replies (s t : Stream (Value Op)) : Reply Op α → Reply Op α → Prop
  | success (output : α) {finish last : Stream (Value Op)} (hreach : sim.Reach s t finish last) :
      Replies s t (.success output finish) (.success output last)
  | failure {failure other : Failure (Value Op)} (h : sim.Failures s t failure other) :
      Replies s t (.failure failure) (.failure other)

/-- Whether all runs of a parser that may be compared end alike, with related
replies. -/
def Respects (p : Parser Op) : Prop :=
  ∀ {s t : Stream (Value Op)} {context other : Context}, sim.Begin s t →
    sim.Contexts context other → (p.run s context).Agree (sim.Replies s t) (p.run t other)

variable {sim}

theorem failures_here (hbegin : sim.Begin s t) (expected : Expected (Value Op))
    (actual : Value Op) :
    sim.Failures s t { expected, actual, remainder := s } { expected, actual, remainder := t } :=
  ⟨sim.reports_refl expected, rfl, sim.refl hbegin⟩

theorem Failures.merge {left otherLeft right otherRight : Failure (Value Op)}
    (hleft : sim.Failures s t left otherLeft) (hright : sim.Failures s t right otherRight) :
    sim.Failures s t (left.merge right) (otherLeft.merge otherRight) where
  expected := sim.merge hleft.expected hright.expected
  actual := by rw [Failure.actual_merge, Failure.actual_merge, hright.actual]
  reach := by
    rw [Failure.remainder_merge, Failure.remainder_merge]
    exact hright.reach

theorem Failures.position_eq_iff (hbegin : sim.Begin s t) {failure other : Failure (Value Op)}
    (h : sim.Failures s t failure other) :
    failure.position = s.position ↔ other.position = t.position :=
  sim.position_eq_iff hbegin h.reach

/-- A parser lets a choice go on after both of two related failures or after
neither. -/
theorem Failures.fallsThrough_eq (hbegin : sim.Begin s t) {failure other : Failure (Value Op)}
    (h : sim.Failures s t failure other) (p : Parser Op) :
    p.fallsThrough failure s = p.fallsThrough other t := by
  have hposition : (failure.position == s.position) = (other.position == t.position) := by
    rw [Bool.eq_iff_iff, beq_iff_eq, beq_iff_eq]
    exact h.position_eq_iff hbegin
  rw [Parser.fallsThrough, Parser.fallsThrough, hposition]

/-- Related replies leave the two runs at places that may be come to. -/
theorem Replies.reach {reply second : Reply Op α} (h : sim.Replies s t reply second) :
    sim.Reach s t reply.remainder second.remainder := by
  cases h with
  | success output hreach => exact hreach
  | failure h => exact h.reach

/-- Replies that are related as seen from where two runs have come to are related as
seen from where they had begun. -/
theorem Replies.of_again {middle other : Stream (Value Op)} (hbegin : sim.Begin s t)
    (hreach : sim.Reach s t middle other) {reply second : Reply Op α}
    (h : sim.Replies middle other reply second) : sim.Replies s t reply second := by
  cases h with
  | success output hmore => exact .success output (sim.trans hbegin hreach hmore)
  | failure h => exact .failure ⟨h.expected, h.actual, sim.trans hbegin hreach h.reach⟩

theorem Replies.mapOutput {reply second : Reply Op α} (h : sim.Replies s t reply second)
    (f : α → β) : sim.Replies s t (reply.mapOutput f) (second.mapOutput f) := by
  cases h with
  | success output hreach => exact .success (f output) hreach
  | failure h => exact .failure h

/-- What follows related replies ends alike if it does after a success. -/
theorem Replies.andThen {reply second : Reply Op α} (h : sim.Replies s t reply second)
    {next follow : α → Stream (Value Op) → Run Op (Reply Op β)}
    (hnext : ∀ output finish last, sim.Reach s t finish last →
      (next output finish).Agree (sim.Replies s t) (follow output last)) :
    (reply.andThen next).Agree (sim.Replies s t) (second.andThen follow) := by
  cases h with
  | success output hreach => exact hnext output _ _ hreach
  | failure h => exact .pure (.failure h)

section Matchers

theorem failures_mismatch {context other : Context} (hcontext : sim.Contexts context other)
    {here there : Stream (Value Op)} (hreach : sim.Reach s t here there) (kind : Descriptor.Kind)
    (items : List (Value Op)) (found : Option (Value Op)) :
    sim.Failures s t (Parser.mismatch kind items context found here)
      (Parser.mismatch kind items other found there) :=
  ⟨sim.labels hcontext kind items, rfl, hreach⟩

theorem respects_satisfying (test : Value Op → Bool) (kind : Descriptor.Kind)
    (items : List (Value Op)) : sim.Respects (.satisfying test kind items) := by
  intro s t context other hbegin hcontext
  have hpeek : s.peek = t.peek := sim.peek_eq hbegin
  simp only [Parser.satisfying, ← hpeek]
  refine .after _ fun found _ => ?_
  cases found.filter test with
  | none =>
      exact .pure (.failure (failures_mismatch hcontext (sim.refl hbegin) kind items found))
  | some token =>
      refine (sim.advance hbegin 1).bind ?_
      intro finish last hreach
      exact .pure (.success token hreach)

theorem agree_literalFrom (hbegin : sim.Begin s t) {context other : Context}
    (hcontext : sim.Contexts context other) (literal : String) (offset : Nat) (cs : List Char) :
    (Parser.literalFrom literal s context offset cs).Agree (sim.Replies s t)
      (Parser.literalFrom literal t other offset cs) := by
  induction cs generalizing offset with
  | nil =>
      refine (sim.advance hbegin offset).bind ?_
      intro finish last hreach
      exact .pure (.success _ hreach)
  | cons c cs ih =>
      refine (sim.advance hbegin offset).bind ?_
      intro here there hreach
      -- however far the literal has been compared, both sides look at one token
      have hpeek : here.peek = there.peek := sim.peek_eq (sim.again hbegin hreach)
      simp only [← hpeek]
      refine .after _ fun found _ => ?_
      by_cases hmatch : found.any (· == .char c)
      · rw [if_pos hmatch, if_pos hmatch]
        exact ih (offset + 1)
      · rw [if_neg hmatch, if_neg hmatch]
        exact .pure (.failure (failures_mismatch hcontext hreach _ _ found))

theorem respects_literal (literal : String) : sim.Respects (.literal literal) :=
  fun hbegin hcontext => agree_literalFrom hbegin hcontext literal 0 literal.toList

theorem respects_pure (v : Value Op) : sim.Respects (.pure v) :=
  fun hbegin _ => .pure (.success v (sim.refl hbegin))

theorem respects_fail (expected : Expected (Value Op)) (actual : Value Op) :
    sim.Respects (.fail expected actual) :=
  fun hbegin _ => .pure (.failure (failures_here hbegin expected actual))

end Matchers

section Combinators

variable {p q : Parser Op}

theorem Respects.map (hp : sim.Respects p) (f : Value Op → Run Op (Value Op)) :
    sim.Respects (p.map f) := by
  intro s t context other hbegin hcontext
  refine (hp hbegin hcontext).bind ?_
  intro reply second hreply
  refine hreply.andThen ?_
  intro output finish last hreach
  exact .after _ fun result _ => .pure (.success result hreach)

theorem Respects.sequence (hp : sim.Respects p) (hq : sim.Respects q)
    (join : Value Op → Value Op → Run Op (Value Op)) : sim.Respects (p.sequence q join) := by
  intro s t context other hbegin hcontext
  refine (hp hbegin hcontext).bind ?_
  intro reply second hreply
  refine hreply.andThen ?_
  intro left middle there hreach
  -- the second parser begins on both sides where the first one has stopped
  have hmiddle : sim.Begin middle there := sim.again hbegin hreach
  refine (hq hmiddle (sim.contexts_refl _)).bind ?_
  intro third fourth hthird
  have hlast : sim.Replies s t third fourth := hthird.of_again hbegin hreach
  refine hlast.andThen ?_
  intro right finish last hfinish
  exact .after _ fun result _ => .pure (.success result hfinish)

theorem Respects.orElse (hp : sim.Respects p) (hq : sim.Respects q) :
    sim.Respects (p.orElse q) := by
  intro s t context other hbegin hcontext
  refine (hp hbegin hcontext).bind ?_
  intro reply second hreply
  cases hreply with
  | success output hreach => exact .pure (.success output hreach)
  | @failure left otherLeft hleft =>
      have hfall : p.fallsThrough left s = p.fallsThrough otherLeft t :=
        hleft.fallsThrough_eq hbegin p
      simp only [← hfall]
      by_cases hfirst : p.fallsThrough left s
      · rw [if_pos hfirst, if_pos hfirst]
        refine (hq hbegin hcontext).bind ?_
        intro third fourth hthird
        cases hthird with
        | success output hreach => exact .pure (.success output hreach)
        | @failure right otherRight hright =>
            have hlast : q.fallsThrough right s = q.fallsThrough otherRight t :=
              hright.fallsThrough_eq hbegin q
            simp only [← hlast]
            by_cases hsecond : q.fallsThrough right s
            · rw [if_pos hsecond, if_pos hsecond]
              exact .pure (.failure (hleft.merge hright))
            · rw [if_neg hsecond, if_neg hsecond]
              exact .pure (.failure hright)
      · rw [if_neg hfirst, if_neg hfirst]
        exact .pure (.failure hleft)

/-- The loop over alternatives carries related failures, so it stops at one member
on both sides. -/
theorem agree_firstOf (hbegin : sim.Begin s t) {context other : Context}
    (hcontext : sim.Contexts context other) {ps : List (Parser Op)}
    (hps : ∀ p ∈ ps, sim.Respects p) {failure otherFailure : Failure (Value Op)}
    (hfailure : sim.Failures s t failure otherFailure) :
    (Parser.firstOf s context failure ps).Agree (sim.Replies s t)
      (Parser.firstOf t other otherFailure ps) := by
  induction ps generalizing failure otherFailure with
  | nil => exact .pure (.failure hfailure)
  | cons p ps ih =>
      have hp : sim.Respects p := hps p List.mem_cons_self
      have htail : ∀ q ∈ ps, sim.Respects q := fun q hq => hps q (List.mem_cons_of_mem _ hq)
      have hposition : failure.position = s.position ↔ otherFailure.position = t.position :=
        hfailure.position_eq_iff hbegin
      simp only [Parser.firstOf, ← hposition]
      by_cases hstart : failure.position = s.position
      · rw [if_pos hstart, if_pos hstart]
        refine (hp hbegin hcontext).bind ?_
        intro reply second hreply
        cases hreply with
        | success output hreach => exact .pure (.success output hreach)
        | @failure next otherNext hnext =>
            have hfall : p.fallsThrough next s = p.fallsThrough otherNext t :=
              hnext.fallsThrough_eq hbegin p
            simp only [← hfall]
            by_cases hon : p.fallsThrough next s
            · rw [if_pos hon, if_pos hon]
              exact ih htail (hfailure.merge hnext)
            · rw [if_neg hon, if_neg hon]
              exact .pure (.failure hnext)
      · rw [if_neg hstart, if_neg hstart]
        exact .pure (.failure hfailure)

theorem respects_alternatives {ps : List (Parser Op)} (hps : ∀ p ∈ ps, sim.Respects p) :
    sim.Respects (.alternatives ps) :=
  fun hbegin hcontext =>
    agree_firstOf hbegin hcontext hps (failures_here hbegin .unknown .failMarker)

/-- A repetition makes no progress on one side just when it makes none on the other;
else it goes on from places where runs may begin again. -/
theorem agree_repeatFrom (hp : sim.Respects p) {context other : Context}
    (hcontext : sim.Contexts context other) (bounded : Bool) (allowed needed : Nat)
    {s t : Stream (Value Op)} (hbegin : sim.Begin s t) :
    (p.repeatFrom context bounded allowed needed s).Agree (sim.Replies s t)
      (p.repeatFrom other bounded allowed needed t) := by
  induction allowed generalizing needed s t with
  | zero =>
      rw [Parser.repeatFrom, Parser.repeatFrom]
      cases bounded with
      | true => exact .pure (.success [] (sim.refl hbegin))
      | false => exact .unfinished
  | succ allowed ih =>
      rw [Parser.repeatFrom, Parser.repeatFrom]
      refine (hp hbegin hcontext).bind ?_
      intro reply second hreply
      cases hreply with
      | failure hfailure =>
          dsimp only
          by_cases henough : needed = 0
          · rw [if_pos henough, if_pos henough]
            exact .pure (.success [] (sim.refl hbegin))
          · rw [if_neg henough, if_neg henough]
            exact .pure (.failure hfailure)
      | @success output finish last hreach =>
          have hposition : finish.position = s.position ↔ last.position = t.position :=
            sim.position_eq_iff hbegin hreach
          simp only [← hposition]
          by_cases hstay : finish.position = s.position
          · rw [if_pos hstay, if_pos hstay]
            -- the events of the two sides tell different positions, the ends do not
            exact .done (.success _ (sim.refl hbegin))
          · rw [if_neg hstay, if_neg hstay]
            refine (ih (needed - 1) (sim.again hbegin hreach)).bind ?_
            intro third fourth hthird
            have hmore : sim.Replies s t third fourth := hthird.of_again hbegin hreach
            exact .pure (hmore.mapOutput (output :: ·))

theorem Respects.repeated (hp : sim.Respects p) (bounds : Bounds) (limit : Nat) :
    sim.Respects (p.repeated bounds limit) := by
  intro s t context other hbegin hcontext
  refine (agree_repeatFrom hp hcontext _ _ _ hbegin).bind ?_
  intro reply second hreply
  exact .pure (hreply.mapOutput Value.list)

theorem Respects.ahead (hp : sim.Respects p) : sim.Respects p.ahead := by
  intro s t context other hbegin hcontext
  refine (hp hbegin hcontext).bind ?_
  intro reply second hreply
  refine hreply.andThen ?_
  intro output finish last hreach
  exact .pure (.success output (sim.refl hbegin))

theorem Respects.notAhead (hp : sim.Respects p) : sim.Respects p.notAhead := by
  intro s t context other hbegin hcontext
  refine (hp hbegin hcontext).bind ?_
  intro reply second hreply
  cases hreply with
  | success output hreach => exact .pure (.failure (failures_here hbegin .unknown output))
  | failure _ => exact .pure (.success Value.nothing (sim.refl hbegin))

theorem respects_deferred {find : Unit → Run Op (Parser Op)}
    (hfind : ∀ p, (find ()).ending = .done p → sim.Respects p) :
    sim.Respects (.deferred find) := by
  intro s t context other hbegin hcontext
  exact .after _ fun p hp => hfind p hp hbegin hcontext

end Combinators

end Simulation

/-- **Every combinator respects every simulation.**  A parser that is built respects
a simulation, if the parsers of the user's own that it is built from do. -/
theorem Parser.Built.respects {sim : Simulation Op} {allowed : Parser Op → Prop}
    (hallowed : ∀ p, allowed p → sim.Respects p) {p : Parser Op} (h : p.Built allowed) :
    sim.Respects p := by
  induction h with
  | custom h => exact hallowed _ h
  | satisfying test kind items => exact Simulation.respects_satisfying test kind items
  | literal s => exact Simulation.respects_literal s
  | pure v => exact Simulation.respects_pure v
  | fail expected actual => exact Simulation.respects_fail expected actual
  | map _ f ih => exact ih.map f
  | orElse _ _ ihp ihq => exact ihp.orElse ihq
  | alternatives _ ih => exact Simulation.respects_alternatives ih
  | backtracking _ ih => exact ih
  | sequence _ _ join ihp ihq => exact ihp.sequence ihq join
  | repeated _ bounds limit ih => exact ih.repeated bounds limit
  | ahead _ ih => exact ih.ahead
  | notAhead _ ih => exact ih.notAhead
  | named _ name ih => exact fun hbegin _ => ih hbegin (sim.contexts_refl _)
  | namedIfAbsent _ name ih =>
      exact fun hbegin hcontext => ih hbegin (sim.contexts_default hcontext name)
  | deferred _ ih => exact Simulation.respects_deferred ih

end Tokenwise
