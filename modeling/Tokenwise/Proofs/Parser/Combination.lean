import Tokenwise.Proofs.Parser.InTurn

/-!
# What a combination does

The parsers of a combination are passed one by one, for as long as they match
(`Parser.Passed`).  The first one is run in the given context, and each of the others where the
one before has stopped, in that context without its name.  What happens then is one of two
things (`Parser.Combines`).  All parsers have been passed, and the function is called with
their outputs.  Or some parser does not match, and what it does is the last thing that happens,
be it a failure or a fault: nothing is run after it, and the function is not called.

`Parser.combination_run_iff` says that this determines the run of a combination, log and all.
-/

namespace Tokenwise

variable {Op : Type}

namespace Run

variable {α β : Type}

/-- The run with `log` in front of what it leaves in the log itself. -/
def behind (log : List (Event Op)) (run : Run Op α) : Run Op α := ⟨log ++ run.log, run.ending⟩

@[simp] theorem behind_nil (run : Run Op α) : behind [] run = run := rfl

theorem behind_behind (first second : List (Event Op)) (run : Run Op α) :
    behind first (behind second run) = behind (first ++ second) run := by
  simp only [behind, List.append_assoc]

/-- What follows a run that is done comes behind the log of the run. -/
theorem bind_eq_behind {run : Run Op α} {log : List (Event Op)} {value : α}
    (h : run = ⟨log, .done value⟩) (next : α → Run Op β) :
    run >>= next = behind log (next value) := by
  rw [h]
  rfl

end Run

namespace Parser

open Reply

/-- Parsers that match one after another, with what they leave in the log, their outputs, where
the last one stops, and the context for what comes next.  This is the given one in front of the
first parser, and the same without its name behind it. -/
inductive Passed : List (Parser Op) → Stream (Value Op) → Context →
    List (Event Op) → List (Value Op) → Stream (Value Op) → Context → Prop
  | nil (stream : Stream (Value Op)) (context : Context) :
      Passed [] stream context [] [] stream context
  | cons {p : Parser Op} {ps : List (Parser Op)} {stream middle here : Stream (Value Op)}
      {context next : Context} {log more : List (Event Op)} {output : Value Op}
      {outputs : List (Value Op)}
      (hrun : p.run stream context = ⟨log, .done (.success output middle)⟩)
      (tail : Passed ps middle context.withoutName more outputs here next) :
      Passed (p :: ps) stream context (log ++ more) (output :: outputs) here next

variable {p : Parser Op} {ps before after : List (Parser Op)} {stream here : Stream (Value Op)}
  {context next : Context} {log : List (Event Op)} {outputs : List (Value Op)}

/-- Either all parsers are passed, or some of them and then there is one that does not match. -/
theorem passed_or_stopped (ps : List (Parser Op)) (stream : Stream (Value Op))
    (context : Context) :
    (∃ log outputs here next, Passed ps stream context log outputs here next)
      ∨ ∃ before p after log outputs here next, ps = before ++ p :: after
        ∧ Passed before stream context log outputs here next
        ∧ ∀ output remainder, ¬ p.Matches here next output remainder := by
  induction ps generalizing stream context with
  | nil => exact .inl ⟨_, _, _, _, .nil stream context⟩
  | cons p ps ih =>
      by_cases hmatches : ∃ output remainder, p.Matches stream context output remainder
      · obtain ⟨output, middle, hending⟩ := hmatches
        have hrun : p.run stream context
            = ⟨(p.run stream context).log, .done (.success output middle)⟩ := by
          rw [← hending]
        obtain ⟨_, _, _, _, hpassed⟩ | ⟨before, q, after, _, _, _, _, hps, hpassed, hstop⟩ :=
          ih middle context.withoutName
        · exact .inl ⟨_, _, _, _, .cons hrun hpassed⟩
        · exact .inr ⟨p :: before, q, after, _, _, _, _, congrArg (p :: ·) hps,
            .cons hrun hpassed, hstop⟩
      · refine .inr ⟨[], p, ps, _, _, _, _, rfl, .nil stream context, ?_⟩
        exact fun output remainder h => hmatches ⟨output, remainder, h⟩

/-- What follows parsers in turn that are all passed is given their outputs. -/
theorem Passed.inTurn_bind {β : Type} (h : Passed ps stream context log outputs here next)
    (follow : List (Value Op) → Stream (Value Op) → Run Op (Reply Op β)) :
    inTurn ps stream context >>= (fun reply => reply.andThen follow)
      = Run.behind log (follow outputs here) := by
  induction h generalizing follow with
  | nil => rfl
  | cons hrun tail ih =>
      simp only [inTurn, bind_assoc, andThen_bind_andThen, pure_bind, success_andThen]
      rw [Run.bind_eq_behind hrun, success_andThen, ih, Run.behind_behind]

/-- What a run that is no match leaves is final. -/
theorem bind_andThen_of_stopped
    (hstop : ∀ output remainder, ¬ p.Matches here next output remainder)
    (follow : Value Op → Stream (Value Op) → Run Op (Reply Op (Value Op))) :
    p.run here next >>= (fun reply => reply.andThen follow) = p.run here next := by
  have hfinal : ∀ reply, (p.run here next).ending = .done reply →
      reply.andThen follow = Pure.pure reply := by
    intro reply hreply
    cases reply with
    | success output remainder => exact absurd hreply (hstop output remainder)
    | failure failure => rfl
  rw [Run.bind_congr_of_done hfinal, bind_pure]

/-- Where a parser does not match, parsers in turn do nothing more, and what follows them is not
reached. -/
theorem Passed.inTurn_bind_of_stopped (h : Passed before stream context log outputs here next)
    (hstop : ∀ output remainder, ¬ p.Matches here next output remainder)
    (follow : List (Value Op) → Stream (Value Op) → Run Op (Reply Op (Value Op))) :
    inTurn (before ++ p :: after) stream context >>= (fun reply => reply.andThen follow)
      = Run.behind log (p.run here next) := by
  induction h generalizing follow with
  | nil stream context =>
      simp only [List.nil_append, inTurn, bind_assoc, andThen_bind_andThen, Run.behind_nil]
      exact bind_andThen_of_stopped hstop _
  | cons hrun tail ih =>
      simp only [List.cons_append, inTurn, bind_assoc, andThen_bind_andThen]
      rw [Run.bind_eq_behind hrun, success_andThen, ih hstop, Run.behind_behind]

variable [Operations Op]

/-- The two ways for a combination to run. -/
inductive Combines (f : Value Op) (ps : List (Parser Op)) (stream : Stream (Value Op))
    (context : Context) : Run Op (Reply Op (Value Op)) → Prop
  /-- All parsers match, and the function is called with their outputs, once and at the end. -/
  | called {log : List (Event Op)} {outputs : List (Value Op)} {here : Stream (Value Op)}
      {next : Context} (hpassed : Passed ps stream context log outputs here next) :
      Combines f ps stream context (Run.behind log do return .success (← f.call outputs) here)
  /-- A parser does not match, and nothing comes behind its run. -/
  | stopped {before after : List (Parser Op)} {p : Parser Op} {log : List (Event Op)}
      {outputs : List (Value Op)} {here : Stream (Value Op)} {next : Context}
      (hps : ps = before ++ p :: after)
      (hpassed : Passed before stream context log outputs here next)
      (hstop : ∀ output remainder, ¬ p.Matches here next output remainder) :
      Combines f ps stream context (Run.behind log (p.run here next))

/-- **A combination is sequential application.**  Any number of parsers, but at least one, can be
combined with any function.  The combination runs the first one in the given context, and each of
the others where the one before has stopped, in this context without its name.  Its run is that of
the parsers up to the first one that does not match, which has the last word.  If all match, the
function is called with their outputs in order, and what it returns is the output, where the last
parser has stopped. -/
theorem combination_run_iff (f : Value Op) (p : Parser Op) (ps : List (Parser Op)) :
    ∃ combined, combine f (p :: ps) = .ok combined ∧ ∀ stream context run,
      combined.run stream context = run ↔ Combines f (p :: ps) stream context run := by
  obtain ⟨combined, hcombine, hrun⟩ := exists_combine f (List.cons_ne_nil p ps)
  refine ⟨combined, hcombine, fun stream context run => ⟨?_, ?_⟩⟩
  · rintro rfl
    rw [hrun]
    obtain ⟨_, _, _, _, hpassed⟩ | ⟨_, _, _, _, _, _, _, hps, hpassed, hstop⟩ :=
      passed_or_stopped (p :: ps) stream context
    · rw [hpassed.inTurn_bind]
      exact .called hpassed
    · rw [hps, hpassed.inTurn_bind_of_stopped hstop, ← hps]
      exact .stopped hps hpassed hstop
  · intro hcombines
    rw [hrun]
    cases hcombines with
    | called hpassed => exact hpassed.inTurn_bind _
    | stopped hps hpassed hstop =>
        rw [hps]
        exact hpassed.inTurn_bind_of_stopped hstop _

end Parser

end Tokenwise
