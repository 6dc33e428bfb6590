import Tokenwise.Proofs.Callable.Currying
import Tokenwise.Proofs.Parser.Outcome

/-!
# Parsers in turn

`Parser.inTurn` applies any number of parsers one after another and lists their outputs.
Each begins where the one before has stopped, and the name in the context is for the first
of them only.

A combination is built the other way round.  It grows from the left, one call at a time,
around a function that has been given a part of its arguments.  `Parser.exists_combine` takes
it apart: a combination runs its parsers in turn, and when all have matched it calls its
function, once and with all of their outputs.  The two are the same run, with the same log.
The induction is over the parsers still to come, and what it carries is that so far the
outputs of the others have been collected (`Parser.collecting`).
-/

namespace Tokenwise

variable {Op : Type}

namespace Reply

variable {α β γ : Type} {reply : Reply Op α}
  {next follow : α → Stream (Value Op) → Run Op (Reply Op β)}

@[simp] theorem success_andThen (output : α) (remainder : Stream (Value Op)) :
    (success output remainder).andThen next = next output remainder := rfl

@[simp] theorem andThen_success :
    (reply.andThen fun output remainder => return .success output remainder)
      = (return reply : Run Op (Reply Op α)) := by
  cases reply <;> rfl

/-- Going on twice after a success is going on after what the first time has led to. -/
theorem andThen_bind_andThen {last : β → Stream (Value Op) → Run Op (Reply Op γ)} :
    (reply.andThen next >>= fun reached => reached.andThen last)
      = reply.andThen fun output remainder =>
          next output remainder >>= fun reached => reached.andThen last := by
  cases reply <;> rfl

/-- Only what follows a success matters. -/
theorem andThen_congr
    (h : ∀ output remainder, reply = .success output remainder →
      next output remainder = follow output remainder) :
    reply.andThen next = reply.andThen follow := by
  cases reply with
  | success output remainder => exact h output remainder rfl
  | failure failure => rfl

/-- To change the output of a reply is to go on with the changed output. -/
theorem mapOutput_eq_andThen (f : α → β) :
    (return reply.mapOutput f : Run Op (Reply Op β))
      = reply.andThen fun output remainder => return .success (f output) remainder := by
  cases reply <;> rfl

end Reply

namespace Parser

open Reply

variable {p : Parser Op} {ps qs : List (Parser Op)} {stream : Stream (Value Op)}
  {context : Context}

/-- Applies the parsers one after another and produces the list of their outputs.  The name in
the context is for the first of them. -/
def inTurn : List (Parser Op) → Stream (Value Op) → Context → Run Op (Reply Op (List (Value Op)))
  | [], stream, _ => return .success [] stream
  | p :: ps, stream, context => do
      (← p.run stream context).andThen fun output remainder => do
        (← inTurn ps remainder context.withoutName).andThen fun outputs finish =>
          return .success (output :: outputs) finish

/-- There is one output for each parser. -/
theorem length_of_inTurn {outputs : List (Value Op)} {finish : Stream (Value Op)}
    (h : (inTurn ps stream context).ending = .done (.success outputs finish)) :
    outputs.length = ps.length := by
  induction ps generalizing stream context outputs with
  | nil =>
      cases h
      rfl
  | cons p ps ih =>
      obtain ⟨output, remainder, -, hmore⟩ := Run.andThen_ending_eq_success.mp h
      obtain ⟨others, last, hothers, hreply⟩ := Run.andThen_ending_eq_success.mp hmore
      cases hreply
      rw [List.length_cons, List.length_cons, ih hothers]

/-- Parsers are applied in turn by applying the first ones, then the others where those have
stopped, and without the name unless there were none. -/
theorem inTurn_append (h : ps ≠ [] ∨ context.withoutName = context) :
    inTurn (ps ++ qs) stream context
      = inTurn ps stream context >>= fun reply => reply.andThen fun outputs remainder =>
          inTurn qs remainder context.withoutName >>= fun reply =>
            reply.andThen fun others finish =>
              return .success (outputs ++ others) finish := by
  induction ps generalizing stream context with
  | nil =>
      have hcontext : context.withoutName = context := h.resolve_left fun hne => hne rfl
      simp only [hcontext, List.nil_append, inTurn, pure_bind, success_andThen, andThen_success,
        bind_pure]
  | cons p ps ih =>
      simp only [List.cons_append, inTurn, bind_assoc, andThen_bind_andThen]
      refine bind_congr fun reply => andThen_congr fun output remainder _ => ?_
      have hnameless : ps ≠ [] ∨ context.withoutName.withoutName = context.withoutName := .inr rfl
      rw [ih hnameless]
      simp only [bind_assoc, andThen_bind_andThen, pure_bind]
      rfl

section Combine

variable [Operations Op] {f : Value Op} {arity : Nat}

/-- Applies the parsers one after another and gives their outputs to `f`, which is called with
them if they are `arity`, and otherwise awaits more. -/
def collecting (f : Value Op) (arity : Nat) (ps : List (Parser Op)) : Parser Op where
  run stream context := do
    (← inTurn ps stream context).andThen fun outputs remainder =>
      return .success (← f.supply arity outputs) remainder

theorem map_call_awaiting :
    (p.map fun output => (Value.function (.awaiting f arity [])).call [output])
      = collecting f arity [p] := by
  simp only [map, collecting, inTurn, bind_assoc, andThen_bind_andThen, Value.call_awaiting,
    pure_bind]
  rfl

/-- As long as arguments are missing, one more parser is applied for one more of them. -/
theorem apply_collecting (hps : ps ≠ []) (hmissing : ps.length < arity) :
    (collecting f arity ps).apply p = collecting f arity (ps ++ [p]) := by
  simp only [apply, sequence, collecting, Parser.mk.injEq, and_true]
  funext stream context
  rw [inTurn_append (.inl hps)]
  simp only [inTurn, bind_assoc, andThen_bind_andThen]
  refine Run.bind_congr_of_done fun reply hreply =>
    andThen_congr fun outputs remainder hsuccess => ?_
  have hcount : outputs.length ≠ arity := by
    rw [length_of_inTurn (hsuccess ▸ hreply)]
    exact Nat.ne_of_lt hmissing
  rw [Value.supply_of_missing hcount, pure_bind, pure_bind]
  simp only [success_andThen, pure_bind, Value.call_awaiting]

theorem foldl_apply_collecting (hps : ps ≠ []) (hcount : ps.length + qs.length ≤ arity) :
    qs.foldl apply (collecting f arity ps) = collecting f arity (ps ++ qs) := by
  induction qs generalizing ps with
  | nil => rw [List.foldl_nil, List.append_nil]
  | cons q qs ih =>
      rw [List.length_cons] at hcount
      have hmore : (ps ++ [q]).length + qs.length ≤ arity := by
        rw [List.length_append, List.length_singleton]
        omega
      rw [List.foldl_cons, apply_collecting hps (by omega), ih (by simp) hmore,
        List.append_assoc, List.singleton_append]

/-- **A combination runs its parsers in turn**, and then calls its function with all of
their outputs. -/
theorem exists_combine (f : Value Op) (hps : ps ≠ []) :
    ∃ combined, combine f ps = .ok combined ∧ ∀ stream context,
      combined.run stream context
        = inTurn ps stream context >>= fun reply => reply.andThen fun outputs remainder =>
            return .success (← f.call outputs) remainder := by
  obtain ⟨p, ps, rfl⟩ := List.exists_cons_of_ne_nil hps
  have hcurry : curry f (some (ps.length + 1))
      = .ok (.function (.awaiting f (ps.length + 1) [])) := by
    have hpositive : ¬ ((ps.length : Int) + 1 < 1) := by omega
    simp only [curry, pure_bind, if_neg hpositive]
    rfl
  refine ⟨collecting f (ps.length + 1) (p :: ps), ?_, ?_⟩
  · have hcount : [p].length + ps.length ≤ ps.length + 1 := Nat.le_of_eq (Nat.add_comm 1 ps.length)
    have hcollect : ps.foldl apply (p.map fun output =>
        (Value.function (.awaiting f (ps.length + 1) [])).call [output])
          = collecting f (ps.length + 1) (p :: ps) := by
      rw [map_call_awaiting, foldl_apply_collecting (List.cons_ne_nil p []) hcount,
        List.singleton_append]
    rw [combine, hcurry]
    exact congrArg Except.ok hcollect
  · intro stream context
    refine Run.bind_congr_of_done fun reply hreply =>
      andThen_congr fun outputs remainder hsuccess => ?_
    have hcount : outputs.length = ps.length + 1 := length_of_inTurn (hsuccess ▸ hreply)
    rw [Value.supply, if_pos hcount]

end Combine

end Parser

end Tokenwise
