import Tokenwise.Proofs.Parser.Simulation
import Tokenwise.Proofs.Stream.Tokens

/-!
# Only the remaining tokens matter

Two streams are **alike** when both are within their sources and the tokens that
they have left are the same.  Their sources may be different containers, or views
to different depths, and what lies before their positions may be anything.

A parser applied to alike streams goes through them **in lockstep**: both runs are
done, or raise the same fault, or are unfinished, and if they are done the two
replies say the same, so many tokens after the start (`Reply.InStep`).  Advancing takes
both sides the same number of tokens on (`Stream.Within.advance_eq`), where they are
alike again (`Stream.Alike.later`).  And wherever a combinator looks at positions it
compares one with the start, where one side is just when the other one is.  So lockstep
is a way to compare runs that every combinator respects (`Course.lockstep`).
-/

namespace Tokenwise

/-- Whether two streams within their sources have the same tokens left. -/
structure Stream.Alike {α : Type} [Token α] (s t : Stream α) : Prop where
  left : s.Within
  right : t.Within
  tokens : s.tokens = t.tokens

theorem Stream.Alike.later {α : Type} [Token α] {s t : Stream α} (h : s.Alike t) {amount : Nat}
    (hamount : amount ≤ s.tokens.length) : (s.later amount).Alike (t.later amount) where
  left := h.left.later hamount
  right := h.right.later (h.tokens ▸ hamount)
  tokens := by rw [tokens_later h.left, tokens_later h.right, h.tokens]

variable {Op : Type}

/-- Two runs begin at streams that are alike, and have always come the same number of
tokens on. -/
def Course.lockstep : Course Op where
  Begin := Stream.Alike
  Reach s t finish last :=
    ∃ amount ≤ s.tokens.length, finish = s.later amount ∧ last = t.later amount
  refl := fun _ => ⟨0, by simp⟩
  trans := by
    intro s t middle other finish last halike hfirst hsecond
    obtain ⟨amount, hamount, rfl, rfl⟩ := hfirst
    obtain ⟨more, hmore, rfl, rfl⟩ := hsecond
    rw [Stream.tokens_later halike.left, List.length_drop] at hmore
    exact ⟨amount + more, by omega, by simp⟩
  again := by
    intro s t finish last halike hreach
    obtain ⟨amount, hamount, rfl, rfl⟩ := hreach
    exact halike.later hamount
  position_eq_iff := by
    intro s t finish last _ hreach
    obtain ⟨amount, _, rfl, rfl⟩ := hreach
    change s.position + amount = s.position ↔ t.position + amount = t.position
    omega
  peek_eq := by
    intro s t halike
    rw [halike.left.peek_eq, halike.right.peek_eq, halike.tokens]
  advance := by
    intro s t halike amount
    rw [halike.left.advance_eq, halike.right.advance_eq, ← halike.tokens]
    exact .pure ⟨_, Nat.min_le_right _ _, rfl, rfl⟩

/-- Whether two replies, to `s` and to `t`, say the same and leave streams that
start the same number of tokens later. -/
inductive Reply.InStep {α : Type} (s t : Stream (Value Op)) : Reply Op α → Reply Op α → Prop
  | success {amount : Nat} (hamount : amount ≤ s.tokens.length) (output : α) :
      InStep s t (.success output (s.later amount)) (.success output (t.later amount))
  | failure {amount : Nat} (hamount : amount ≤ s.tokens.length) {failure other : Failure (Value Op)}
      (hexpected : failure.expected = other.expected) (hactual : failure.actual = other.actual)
      (hleft : failure.remainder = s.later amount) (hright : other.remainder = t.later amount) :
      InStep s t (.failure failure) (.failure other)

theorem Simulation.Replies.inStep {α : Type} {s t : Stream (Value Op)} {reply other : Reply Op α}
    (h : Course.lockstep.simulation.Replies s t reply other) : reply.InStep s t other := by
  cases h with
  | success output hreach =>
      obtain ⟨amount, hamount, rfl, rfl⟩ := hreach
      exact .success hamount output
  | failure h =>
      obtain ⟨amount, hamount, hleft, hright⟩ := h.reach
      exact .failure hamount h.expected h.actual hleft hright

/-- **Only the remaining tokens matter.**  Take two streams, each within its source
at every level, that give the same tokens one by one.  Among any definitions, a
grammar without parsers of the user's own does the same on both.  The two runs are
both done, or raise the same fault, or are unfinished, and if they are done then both have
succeeded, with equal outputs and the same number of tokens consumed, or both have
failed, with the same expected and the same found so many tokens after the start. -/
theorem Definitions.run_depends_on_tokens_only [Operations Op]
    {definitions : Definitions Op} {g : Grammar Op}
    (hdefs : definitions.Every fun part => ∀ p, part ≠ .custom p)
    (hg : g.Every fun part => ∀ p, part ≠ .custom p)
    (fuel : Nat) {s t : Stream (Value Op)}
    (hs : s.Within) (ht : t.Within) (htokens : s.toList = t.toList)
    (context : Context) :
    ((definitions.parser fuel g).run s context).Agree (Reply.InStep s t)
      ((definitions.parser fuel g).run t context) := by
  have hbuilt : (definitions.parser fuel g).Built fun _ => False :=
    definitions.parser_built hdefs hg fuel
  have hrespects : Course.lockstep.simulation.Respects (definitions.parser fuel g) :=
    hbuilt.respects fun _ h => h.elim
  rw [hs.toList_eq, ht.toList_eq] at htokens
  have halike : s.Alike t := ⟨hs, ht, Except.ok.inj htokens⟩
  refine (hrespects halike rfl).mono ?_
  intro reply other hreply
  exact hreply.inStep

/-- Brackets are parsed alike in a text and in a list of characters that is viewed
from its second item on. -/
theorem Definitions.brackets_in_step :
    let s : Stream (Value Stock) := ⟨.whole (.text ['-', '-', '(', ')']), 2⟩
    let t : Stream (Value Stock) := ⟨.view (.whole (.list [.nothing, .char '(', .char ')'])) 1, 0⟩
    s.toList = t.toList
      ∧ ((brackets.parser 3 (.deferred "brackets")).run s {}).Agree (Reply.InStep s t)
        ((brackets.parser 3 (.deferred "brackets")).run t {}) := by
  intro s t
  have hg : (Grammar.deferred "brackets" : Grammar Stock).Every fun part => ∀ p, part ≠ .custom p :=
    .leaf nofun rfl
  have htokens : s.toList = t.toList := rfl
  have hs : s.Within := ⟨trivial, by decide, 4, rfl, by decide⟩
  have ht : t.Within := ⟨⟨trivial, by decide, 3, rfl, by decide⟩, by decide, 2, rfl, by decide⟩
  refine ⟨htokens, ?_⟩
  exact run_depends_on_tokens_only (every_brackets fun _ hpart => hpart) hg 3 hs ht htokens {}

end Tokenwise
