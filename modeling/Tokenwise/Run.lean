import Tokenwise.Value.Text

/-!
# Runs

What happens when a parser or a function is run: it leaves a log of events
behind, and it ends in one of three ways.  It is **done** with a value, it has
**raised** a fault, or it is **unfinished**, because it recursed or repeated
more often than it was allowed to.

Runs form a monad.  Doing one thing after another joins the logs, and what
follows a run that is not done never happens.
-/

namespace Tokenwise

/-- What a run reports while it goes on. -/
inductive Event (Op : Type) where
  /-- A whole input of that many tokens is being parsed. -/
  | parsing (count : Nat)
  /-- The input does not match. -/
  | failed (failure : Failure (Value Op))
  /-- A part of the input matches, up to the position. -/
  | trailing (position : Int)
  /-- A repetition stops since its parser consumes nothing. -/
  | noProgress (position : Int)
  /-- A deferred parser has been found. -/
  | resolved (position : Int)

/-- The line that an event leaves in a log. -/
def Event.line {Op : Type} [ToString Op] : Event Op → Except Fault String
  | parsing count => .ok ("parsing " ++ toString count ++ " tokens")
  | failed failure => do
      return "failed at position " ++ toString failure.position ++ ": " ++ (← failure.message)
  | trailing position => .ok ("trailing input at position " ++ toString position)
  | noProgress position =>
      .ok ("repetition made no progress at position " ++ toString position)
  | resolved position => .ok ("resolved lazy parser at position " ++ toString position)

inductive Ending (α : Type) where
  | done (value : α)
  | raised (fault : Fault)
  | unfinished

structure Run (Op α : Type) where
  log : List (Event Op)
  ending : Ending α

namespace Run

variable {Op α β : Type}

protected def pure (value : α) : Run Op α := ⟨[], .done value⟩

protected def bind (run : Run Op α) (next : α → Run Op β) : Run Op β :=
  match run.ending with
  | .done value => ⟨run.log ++ (next value).log, (next value).ending⟩
  | .raised fault => ⟨run.log, .raised fault⟩
  | .unfinished => ⟨run.log, .unfinished⟩

instance : Monad (Run Op) where
  pure := Run.pure
  bind := Run.bind

/-- The run that only raises a fault. -/
def raise (fault : Fault) : Run Op α := ⟨[], .raised fault⟩

/-- The run that has used up what it was allowed. -/
def unfinished : Run Op α := ⟨[], .unfinished⟩

def report (event : Event Op) : Run Op Unit := ⟨[event], .done ()⟩

def ofExcept : Except Fault α → Run Op α
  | .ok value => Run.pure value
  | .error fault => raise fault

instance : MonadLift (Except Fault) (Run Op) := ⟨ofExcept⟩

/-- The lines of the log.  An event whose line cannot be written leaves none. -/
def lines [ToString Op] (run : Run Op α) : List String :=
  run.log.filterMap fun event => event.line.toOption

theorem pure_def (value : α) : (pure value : Run Op α) = ⟨[], .done value⟩ := rfl

@[simp] theorem bind_done (log : List (Event Op)) (value : α) (next : α → Run Op β) :
    (⟨log, .done value⟩ : Run Op α) >>= next
      = ⟨log ++ (next value).log, (next value).ending⟩ := rfl

@[simp] theorem bind_raised (log : List (Event Op)) (fault : Fault) (next : α → Run Op β) :
    (⟨log, .raised fault⟩ : Run Op α) >>= next = ⟨log, .raised fault⟩ := rfl

@[simp] theorem bind_unfinished (log : List (Event Op)) (next : α → Run Op β) :
    (⟨log, .unfinished⟩ : Run Op α) >>= next = ⟨log, .unfinished⟩ := rfl

@[simp] theorem raise_bind (fault : Fault) (next : α → Run Op β) :
    raise fault >>= next = raise fault := rfl

@[simp] theorem unfinished_bind (next : α → Run Op β) :
    (unfinished : Run Op α) >>= next = unfinished := rfl

/-- A chain of two runs is done when both are. -/
theorem ending_bind_eq_done {run : Run Op α} {next : α → Run Op β} {value : β} :
    (run >>= next).ending = .done value
      ↔ ∃ first, run.ending = .done first ∧ (next first).ending = .done value := by
  rcases run with ⟨log, first | fault | _⟩ <;> simp

/-- A chain of two runs is unfinished if the first one is, or else the second. -/
theorem ending_bind_eq_unfinished {run : Run Op α} {next : α → Run Op β} :
    (run >>= next).ending = .unfinished
      ↔ run.ending = .unfinished
        ∨ ∃ first, run.ending = .done first ∧ (next first).ending = .unfinished := by
  rcases run with ⟨log, first | fault | _⟩ <;> simp

/-- What follows a run matters only for the values that it can be done with. -/
theorem bind_congr_of_done {run : Run Op α} {next follow : α → Run Op β}
    (h : ∀ value, run.ending = .done value → next value = follow value) :
    run >>= next = run >>= follow := by
  rcases run with ⟨log, value | fault | _⟩
  · rw [bind_done, bind_done, h value rfl]
  · rfl
  · rfl

/-- How a chain of two runs ends depends only on how they end. -/
theorem ending_bind_congr {run other : Run Op α} {next follow : α → Run Op β}
    (hrun : run.ending = other.ending)
    (h : ∀ value, run.ending = .done value → (next value).ending = (follow value).ending) :
    (run >>= next).ending = (other >>= follow).ending := by
  rcases run with ⟨log, value | fault | _⟩ <;> rcases other with ⟨otherLog, ending⟩ <;> cases hrun
  · exact h value rfl
  · rfl
  · rfl

theorem bind_assoc_run {γ : Type} (run : Run Op α) (f : α → Run Op β) (g : β → Run Op γ) :
    run >>= f >>= g = run >>= fun value => f value >>= g := by
  rcases run with ⟨log, value | _ | _⟩
  · simp only [bind_done]
    cases h : f value with
    | mk more ending => cases ending <;> simp
  · rfl
  · rfl

instance : LawfulMonad (Run Op) :=
  LawfulMonad.mk' (Run Op)
    (by rintro α ⟨log, _ | _ | _⟩ <;> simp [Functor.map, Run.bind, Run.pure])
    (fun _ _ => rfl)
    bind_assoc_run

end Run

end Tokenwise
