import Tokenwise.Proofs.Parser.InTurn

/-!
# Three in sequence, grouped either way

Sequences are written without brackets and read from the left, also where left and right outputs
are kept in turn.  It does not matter.  Both groupings run three parsers one after another
(`Parser.threeInTurn`) and stop at the first that does not match or does not end.  Only the first
of them sees the name in the context, as a context without a name is left without one.

What the groupings do at different times is to put outputs together.  If this has no effect of
its own, then all that is asked for is that the two ways to put three outputs together agree
(`Parser.sequence_regroup`).  Keeping one of two outputs passes this test in four ways.
-/

namespace Tokenwise

variable {Op : Type}

namespace Parser

open Reply

variable (p q r : Parser Op)

/-- Runs three parsers one after another and makes one output of the three.  The name in the
context is for the first of them. -/
def threeInTurn (result : Value Op → Value Op → Value Op → Value Op) : Parser Op where
  run stream context := do
    (← p.run stream context).andThen fun left remainder => do
      (← q.run remainder context.withoutName).andThen fun middle remainder => do
        (← r.run remainder context.withoutName).andThen fun right finish =>
          return .success (result left middle right) finish

section Regroup

variable (first second outer inner : Value Op → Value Op → Value Op)

/-- Grouped from the left, the first two outputs are put together before the third parser runs. -/
theorem sequence_left_eq_threeInTurn :
    (p.sequence q fun left middle => return first left middle).sequence r
        (fun left right => return second left right)
      = threeInTurn p q r fun left middle right => second (first left middle) right := by
  simp only [sequence, threeInTurn, Parser.mk.injEq, and_true]
  funext stream context
  simp only [bind_assoc, andThen_bind_andThen, pure_bind, success_andThen]

/-- Grouped from the right, the last two outputs are put together after all have run, and the
name is forgotten twice. -/
theorem sequence_right_eq_threeInTurn :
    p.sequence (q.sequence r fun middle right => return inner middle right)
        (fun left right => return outer left right)
      = threeInTurn p q r fun left middle right => outer left (inner middle right) := by
  have hnameless (context : Context) : context.withoutName.withoutName = context.withoutName := rfl
  simp only [sequence, threeInTurn, Parser.mk.injEq, and_true]
  funext stream context
  simp only [bind_assoc, andThen_bind_andThen, pure_bind, success_andThen, hnameless]

/-- **Two sequences are grouped either way**, if it does not matter for the outputs. -/
theorem sequence_regroup {first second outer inner : Value Op → Value Op → Value Op}
    (houtput : ∀ left middle right,
      second (first left middle) right = outer left (inner middle right)) :
    (p.sequence q fun left middle => return first left middle).sequence r
        (fun left right => return second left right)
      = p.sequence (q.sequence r fun middle right => return inner middle right)
          fun left right => return outer left right := by
  rw [sequence_left_eq_threeInTurn, sequence_right_eq_threeInTurn]
  simp only [houtput]

end Regroup

/-- **Sequencing is associative in every mixed form.**  For any three parsers, the groupings
`(p >> q) >> r` and `p >> (q >> r)`, `(p << q) << r` and `p << (q << r)`, `(p << q) << r` and
`p << (q >> r)`, and `(p >> q) << r` and `p >> (q << r)` are the same parser: on every stream and
in every context, named or not, they leave one log and end in one way, with the same output and
remainder, the same failure, or the same fault. -/
theorem sequences_associate :
    (p.keepRight q).keepRight r = p.keepRight (q.keepRight r)
      ∧ (p.keepLeft q).keepLeft r = p.keepLeft (q.keepLeft r)
      ∧ (p.keepLeft q).keepLeft r = p.keepLeft (q.keepRight r)
      ∧ (p.keepRight q).keepLeft r = p.keepRight (q.keepLeft r) := by
  refine ⟨?_, ?_, ?_, ?_⟩ <;> exact sequence_regroup p q r fun _ _ _ => rfl

end Parser

end Tokenwise
