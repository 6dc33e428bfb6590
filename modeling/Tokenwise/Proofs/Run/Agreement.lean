import Tokenwise.Run

/-!
# How two runs compare

Two runs **agree** when they end alike: both are done, with values that are
related, or both raise the same fault, or both are unfinished (`Run.Agree`).  Nothing is
said of what they leave in the log.

`Agree.bind` is the rule for doing one thing after another, so that two runs of a
combinator are compared along its definition, step by step.  A step that is the same
on both sides drops out (`Agree.after`).
-/

namespace Tokenwise

/-- Whether two ends are of one kind, with related values or the same fault. -/
inductive Ending.Agree {α β : Type} (related : α → β → Prop) : Ending α → Ending β → Prop
  | done {value : α} {other : β} (h : related value other) :
      Agree related (.done value) (.done other)
  | raised (fault : Fault) : Agree related (.raised fault) (.raised fault)
  | unfinished : Agree related .unfinished .unfinished

namespace Run

variable {Op α β γ δ : Type}

/-- Whether two runs end alike. -/
def Agree (related : α → β → Prop) (run : Run Op α) (other : Run Op β) : Prop :=
  run.ending.Agree related other.ending

section Agree

variable {related : α → β → Prop}

theorem Agree.pure {value : α} {other : β} (h : related value other) :
    Agree related (Pure.pure value : Run Op α) (Pure.pure other : Run Op β) :=
  .done h

theorem Agree.unfinished :
    Agree related (Run.unfinished : Run Op α) (Run.unfinished : Run Op β) :=
  Ending.Agree.unfinished

theorem Agree.self {same : α → α → Prop} {run : Run Op α}
    (h : ∀ value, run.ending = .done value → same value value) : Agree same run run := by
  unfold Agree
  cases hending : run.ending with
  | done value => exact .done (h value hending)
  | raised fault => exact .raised fault
  | unfinished => exact .unfinished

theorem Agree.mono {weaker : α → β → Prop} {run : Run Op α} {other : Run Op β}
    (h : Agree related run other)
    (himp : ∀ value second, related value second → weaker value second) :
    Agree weaker run other := by
  rcases run with ⟨log, ending⟩
  rcases other with ⟨otherLog, otherEnding⟩
  cases h with
  | done hrelated => exact .done (himp _ _ hrelated)
  | raised fault => exact .raised fault
  | unfinished => exact Ending.Agree.unfinished

theorem Agree.symm {converse : β → α → Prop} {run : Run Op α} {other : Run Op β}
    (h : Agree related run other)
    (himp : ∀ value second, related value second → converse second value) :
    Agree converse other run := by
  rcases run with ⟨log, ending⟩
  rcases other with ⟨otherLog, otherEnding⟩
  cases h with
  | done hrelated => exact .done (himp _ _ hrelated)
  | raised fault => exact .raised fault
  | unfinished => exact Ending.Agree.unfinished

theorem Agree.trans {next : β → γ → Prop} {both : α → γ → Prop} {run : Run Op α}
    {other : Run Op β} {third : Run Op γ} (h : Agree related run other)
    (hnext : Agree next other third)
    (himp : ∀ value second last, related value second → next second last → both value last) :
    Agree both run third := by
  rcases run with ⟨log, ending⟩
  rcases other with ⟨otherLog, otherEnding⟩
  rcases third with ⟨thirdLog, thirdEnding⟩
  cases h with
  | done hrelated =>
      cases hnext with
      | done hmore => exact .done (himp _ _ _ hrelated hmore)
  | raised fault =>
      cases hnext
      exact .raised fault
  | unfinished =>
      cases hnext
      exact Ending.Agree.unfinished

/-- Runs that end alike go on to end alike if what follows related values does. -/
theorem Agree.bind {run : Run Op α} {other : Run Op β} {next : α → Run Op γ}
    {follow : β → Run Op δ} {goal : γ → δ → Prop} (hrun : Agree related run other)
    (hnext : ∀ value second, related value second → Agree goal (next value) (follow second)) :
    Agree goal (run >>= next) (other >>= follow) := by
  rcases run with ⟨log, ending⟩
  rcases other with ⟨otherLog, otherEnding⟩
  cases hrun with
  | done h => exact hnext _ _ h
  | raised fault => exact .raised fault
  | unfinished => exact Ending.Agree.unfinished

/-- The same run on both sides can be left out. -/
theorem Agree.after (run : Run Op α) {next : α → Run Op γ} {follow : α → Run Op δ}
    {goal : γ → δ → Prop}
    (hnext : ∀ value, run.ending = .done value → Agree goal (next value) (follow value)) :
    Agree goal (run >>= next) (run >>= follow) := by
  rcases run with ⟨log, ending⟩
  cases ending with
  | done value => exact hnext value rfl
  | raised fault => exact .raised fault
  | unfinished => exact Ending.Agree.unfinished

/-- Of two runs that end alike, one is done if the other is, with related values. -/
theorem Agree.exists_done {run : Run Op α} {other : Run Op β} (h : Agree related run other)
    {value : α} (hvalue : run.ending = .done value) :
    ∃ second, other.ending = .done second ∧ related value second := by
  unfold Agree at h
  rw [hvalue] at h
  generalize hother : other.ending = ending at h
  cases h with
  | done hrelated => exact ⟨_, rfl, hrelated⟩

end Agree

end Run

end Tokenwise
