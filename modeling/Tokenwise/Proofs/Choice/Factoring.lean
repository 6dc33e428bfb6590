import Tokenwise.Callable.Stock
import Tokenwise.Proofs.Choice.Regroup
import Tokenwise.Proofs.Parser.InTurn

/-!
# Factoring a common start out of a choice

Two alternatives that start alike can be written with the start in front of a choice, as
`a >> (b | c)` for `(a >> b) | (a >> c)`.  The start is then run once and not twice, and the
choice asks of another place whether a failure lies at its start.  So the two are different
parsers: where `b` fails at once, one choice goes on, and the other one has `a` behind it.

A marked first operand takes the question away.  The choice goes on after any failure of it,
and the second operand decides alone, but for what is listed as expected
(`Parser.agree_backtracking_orElse`, in terms of `Reply.otherwise`).  Going on after a failure
distributes over going on after a success, as the common start ends the second time as it did
the first time (`Reply.otherwise_andThen_ending`), and over what is made of the outputs, which
does not fail (`Reply.otherwise_bind_produce`).  Both forms come down to the start and then one
operand or otherwise the other (`Parser.thenEither`).  `Parser.left_factoring` is the case where
the right output is kept.
-/

namespace Tokenwise

variable {Op : Type}

namespace Reply

variable {α β : Type}

/-- Goes on after a failure, wherever it lies, and passes a success on. -/
def otherwise (reply : Reply Op α) (next : Run Op (Reply Op α)) : Run Op (Reply Op α) :=
  match reply with
  | success output remainder => return .success output remainder
  | failure _ => next

/-- Makes an output of the output of a success, and passes a failure on. -/
def produce (reply : Reply Op α) (result : α → Run Op β) : Run Op (Reply Op β) :=
  reply.andThen fun output remainder => return .success (← result output) remainder

/-- Of two ways to go on after a run, the second one for when the first one fails, the choice
can be made after this run. -/
theorem otherwise_andThen_ending (run : Run Op (Reply Op α))
    (next follow : α → Stream (Value Op) → Run Op (Reply Op β)) :
    ((run >>= fun reply => reply.andThen next) >>= fun reply =>
        reply.otherwise (run >>= fun again => again.andThen follow)).ending
      = (run >>= fun reply => reply.andThen fun output remainder =>
          next output remainder >>= fun reply =>
            reply.otherwise (follow output remainder)).ending := by
  rw [bind_assoc]
  refine Run.ending_bind_congr rfl fun reply hreply => ?_
  -- the run has ended with `reply`, and does so again
  have hagain : (run >>= fun again => again.andThen follow).ending
      = (reply.andThen follow).ending := by
    rcases run with ⟨log, ending⟩
    cases hreply
    rfl
  cases reply with
  | success output remainder =>
      refine Run.ending_bind_congr rfl fun other _ => ?_
      cases other with
      | success _ _ => rfl
      | failure _ => exact hagain
  | failure f => exact hagain

/-- Outputs are made before or after the choice, as this does not fail. -/
theorem otherwise_bind_produce (run other : Run Op (Reply Op α)) (result : α → Run Op β) :
    (run >>= fun reply => reply.otherwise other) >>= (fun reply => reply.produce result)
      = (run >>= fun reply => reply.produce result) >>= fun reply =>
          reply.otherwise (other >>= fun reply => reply.produce result) := by
  rw [bind_assoc, bind_assoc]
  refine bind_congr fun reply => ?_
  cases reply with
  | success output remainder =>
      simp only [otherwise, produce, success_andThen, pure_bind, bind_assoc]
  | failure f => rfl

section SameButLabels

variable {reply other third : Reply Op α}

theorem SameButLabels.symm (h : reply.SameButLabels other) : other.SameButLabels reply := by
  cases h with
  | success output remainder => exact .success output remainder
  | failure hkind hactual hremainder => exact .failure hkind.symm hactual.symm hremainder.symm

theorem SameButLabels.trans (h : reply.SameButLabels other) (hnext : other.SameButLabels third) :
    reply.SameButLabels third := by
  cases h with
  | success output remainder => exact hnext
  | failure hkind hactual hremainder =>
      cases hnext with
      | failure hmore hfound hplace =>
          exact .failure (hkind.trans hmore) (hactual.trans hfound) (hremainder.trans hplace)

end SameButLabels

theorem agree_produce {reply other : Reply Op (Value Op)} (h : reply.SameButLabels other)
    (result : Value Op → Run Op (Value Op)) :
    (reply.produce result).Agree SameButLabels (other.produce result) := by
  cases h with
  | success output remainder => exact .self fun reply _ => .refl reply
  | failure hkind hactual hremainder => exact .pure (.failure hkind hactual hremainder)

end Reply

namespace Parser

open Reply

/-- **A marked operand leaves the decision to the other one.**  But for the labels, a choice
whose first operand is marked is this operand or otherwise the second one. -/
theorem agree_backtracking_orElse (p q : Parser Op) (stream : Stream (Value Op))
    (context : Context) :
    ((p.backtracking.orElse q).run stream context).Agree SameButLabels
      (p.run stream context >>= fun reply => reply.otherwise (q.run stream context)) := by
  refine .after _ fun reply _ => ?_
  cases reply with
  | success output remainder => exact .pure (.refl _)
  | failure left =>
      have hmarked : p.backtracking.fallsThrough left stream = true := rfl
      simp only [if_pos hmarked, otherwise]
      rw [← bind_pure (q.run stream context), bind_assoc]
      refine .after _ fun other _ => ?_
      cases other with
      | success output remainder => exact .pure (.refl _)
      | failure right =>
          rw [pure_bind]
          by_cases hmerge : q.fallsThrough right stream
          · simp only [if_pos hmerge]
            exact .pure (.failure (by simp) (by simp) (by simp))
          · simp only [if_neg hmerge]
            exact .pure (.refl _)

theorem run_sequence (p q : Parser Op) (join : Value Op → Value Op → Run Op (Value Op))
    (stream : Stream (Value Op)) (context : Context) :
    (p.sequence q join).run stream context
      = p.run stream context >>= fun reply => reply.andThen fun left remainder =>
          q.run remainder context.withoutName >>= fun reply => reply.produce (join left) := rfl

section Sequence

variable (a b c : Parser Op) (join : Value Op → Value Op → Run Op (Value Op))
  (stream : Stream (Value Op)) (context : Context)

/-- Runs `a`, then `b` or otherwise `c` where `a` has stopped, and makes one output of the two. -/
def thenEither : Run Op (Reply Op (Value Op)) := do
  (← a.run stream context).andThen fun left remainder => do
    let reply ← b.run remainder context.withoutName >>= fun reply =>
      reply.otherwise (c.run remainder context.withoutName)
    reply.produce (join left)

/-- Behind the start, the choice is `b` or otherwise `c`. -/
theorem agree_thenEither_of_factored :
    ((a.sequence (b.backtracking.orElse c) join).run stream context).Agree SameButLabels
      (thenEither a b c join stream context) := by
  refine .after _ fun reply _ => ?_
  cases reply with
  | success left remainder =>
      exact (agree_backtracking_orElse b c remainder context.withoutName).bind
        fun _ _ hreply => agree_produce hreply (join left)
  | failure failure => exact .pure (.refl _)

/-- In front of the start, the choice is the one behind it, after the first of two runs of the
start that end alike. -/
theorem agree_thenEither_of_unfactored :
    (((a.sequence b join).backtracking.orElse (a.sequence c join)).run stream context).Agree
      SameButLabels (thenEither a b c join stream context) := by
  have hends := agree_backtracking_orElse (a.sequence b join) (a.sequence c join) stream context
  rw [Run.Agree, run_sequence, run_sequence, otherwise_andThen_ending] at hends
  simp only [← otherwise_bind_produce] at hends
  exact hends

/-- A common start can be taken out of a choice whose first operand is marked, however the
outputs are put together. -/
theorem agree_sequence_factored :
    (((a.sequence b join).backtracking.orElse (a.sequence c join)).run stream context).Agree
      SameButLabels ((a.sequence (b.backtracking.orElse c) join).run stream context) :=
  (agree_thenEither_of_unfactored a b c join stream context).trans
    ((agree_thenEither_of_factored a b c join stream context).symm fun _ _ => SameButLabels.symm)
    fun _ _ _ => SameButLabels.trans

end Sequence

/-- **Left factoring.**  For any parsers, on every stream and in every context, the choice
`(a >> b) | (a >> c)` with its first operand marked and `a >> (b | c)` with `b` marked end alike:
with the same output and remainder, with failures at one place that have found the same there, or
with the same fault.  What the failures expect is of one kind, and only the items may differ. -/
theorem left_factoring (a b c : Parser Op) (stream : Stream (Value Op)) (context : Context) :
    (((a.keepRight b).backtracking.orElse (a.keepRight c)).run stream context).Agree
      SameButLabels ((a.keepRight (b.backtracking.orElse c)).run stream context) :=
  agree_sequence_factored a b c (fun _ right => return right) stream context

/-- Behind the start, the failures of both operands lie at the start of the choice and are
merged.  In front of it only the second one is reported. -/
example :
    let a : Parser Stock := token (.char 'a')
    let b : Parser Stock := token (.char 'b')
    let c : Parser Stock := token (.char 'c')
    let stream : Stream (Value Stock) := ⟨.whole (.text ['a', 'x']), 0⟩
    ((a.keepRight b).backtracking.orElse (a.keepRight c)).Fails stream {}
        { expected := .described ⟨.oneOf, [.char 'c']⟩, actual := .char 'x',
          remainder := ⟨stream.source, 1⟩ }
      ∧ (a.keepRight (b.backtracking.orElse c)).Fails stream {}
        { expected := .described ⟨.oneOf, [.char 'b', .char 'c']⟩, actual := .char 'x',
          remainder := ⟨stream.source, 1⟩ } :=
  ⟨rfl, rfl⟩

end Parser

end Tokenwise
