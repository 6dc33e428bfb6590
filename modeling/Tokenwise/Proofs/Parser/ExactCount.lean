import Tokenwise.Callable.Stock
import Tokenwise.Parser.Output
import Tokenwise.Proofs.Parser.InTurn
import Tokenwise.Proofs.Parser.Onward

/-!
# Repeating an exact number of times

A repetition that is asked for `n` outputs may stop early.  After a run that has consumed
nothing it does not run its parser again but fills up the list.  That this is no more than
a shortcut is shown by running the parser `n` times in turn, whatever comes of it
(`Parser.repeatFrom_ending_eq_inTurn`): with as many runs allowed as outputs are needed the
loop ends as the runs in turn do, be it with a failure or a fault.  The induction is on the
number of runs.  Where the loop stops early, the parser has come back to the very stream
that it was applied to, as the position is the same and the source is never left, and so all
further runs would do the same again (`Parser.inTurn_replicate_of_stuck`).

The laws of exact repetition are then those of parsers in turn: `n` copies of the parser
combined (`Parser.repeated_eq_combined`), and numbers that add up (`Parser.repeated_add`).
A name is for the first of the parsers in turn but for all runs of a repetition, so the laws
are for contexts without one.
-/

namespace Tokenwise

variable {Op : Type}

/-- The bounds of an exact number of repetitions. -/
def Bounds.exactly (n : Nat) : Bounds := ⟨n, some n, fun _ h => Nat.le_of_eq (Option.mem_some.mp h)⟩

theorem Bounds.ofRequest_exactly (n : Nat) :
    Bounds.ofRequest (some (.exactly n)) = .ok (.exactly n) := by
  simp [ofRequest, between, exactly]

/-- Lists are concatenated. -/
theorem Value.call_concatTo [Operations Op] (first second : List (Value Op)) :
    (function (.concatTo (list first))).call [list second] = return list (first ++ second) := rfl

namespace Parser

open Reply

/-- Whether the matches of a parser leave a view of the source that it is applied to. -/
def KeepsSource (p : Parser Op) : Prop :=
  ∀ {stream : Stream (Value Op)} {context : Context} {output : Value Op}
    {remainder : Stream (Value Op)},
    p.Matches stream context output remainder → remainder.source = stream.source

/-- What is built from the matchers by the combinators keeps the source. -/
theorem Built.keepsSource {p : Parser Op} (hp : p.Built fun _ => False) : p.KeepsSource := by
  intro stream context output remainder hmatches
  have hrespects : Course.sameSource.simulation.Respects p := hp.respects fun _ h => h.elim
  exact hrespects.source_eq hmatches

variable {p : Parser Op} {stream : Stream (Value Op)} {output : Value Op}

/-- A match that keeps the source and has not gone on leaves the stream that it began at. -/
theorem KeepsSource.remainder_eq (hp : p.KeepsSource) {context : Context}
    {remainder : Stream (Value Op)} (hmatches : p.Matches stream context output remainder)
    (hstay : remainder.position = stream.position) : remainder = stream :=
  Stream.eq_of_source_of_position (hp hmatches) hstay

/-- A parser that leaves all input does the same again any number of times. -/
theorem inTurn_replicate_of_stuck (h : p.Matches stream {} output stream) (n : Nat) :
    (inTurn (List.replicate n p) stream {}).ending
      = .done (.success (List.replicate n output) stream) := by
  induction n with
  | zero => rfl
  | succ n ih =>
      refine Run.andThen_ending_eq_success.mpr ⟨output, stream, h, ?_⟩
      exact Run.andThen_ending_eq_success.mpr ⟨_, _, ih, rfl⟩

/-- **Filling up is repeating.**  A loop that is allowed as many runs as it needs ends as
these runs of its parser in turn do. -/
theorem repeatFrom_ending_eq_inTurn (hp : p.KeepsSource) (n : Nat) (stream : Stream (Value Op)) :
    (p.repeatFrom {} true n n stream).ending = (inTurn (List.replicate n p) stream {}).ending := by
  induction n generalizing stream with
  | zero => rfl
  | succ n ih =>
      refine Run.ending_bind_congr rfl fun reply hreply => ?_
      cases reply with
      | failure failure => rfl
      | success output remainder =>
          by_cases hstay : remainder.position = stream.position
          · obtain rfl : remainder = stream := hp.remainder_eq hreply hstay
            have hagain : (inTurn (List.replicate n p) remainder {}).ending
                = .done (.success (List.replicate n output) remainder) :=
              inTurn_replicate_of_stuck hreply n
            simp only [if_pos]
            exact (Run.andThen_ending_eq_success.mpr ⟨_, _, hagain, rfl⟩).symm
          · simp only [if_neg hstay]
            refine Run.ending_bind_congr (ih remainder) fun more _ => ?_
            rw [mapOutput_eq_andThen]

/-- An exact repetition ends as the runs of its parser in turn do, with the list of their
outputs. -/
theorem repeated_exactly_ending (hp : p.KeepsSource) (n limit : Nat) (stream : Stream (Value Op)) :
    ((p.repeated (.exactly n) limit).run stream {}).ending
      = (inTurn (List.replicate n p) stream {} >>= fun reply =>
          reply.andThen fun outputs remainder =>
            return .success (.list outputs) remainder).ending := by
  refine Run.ending_bind_congr (repeatFrom_ending_eq_inTurn hp n stream) fun reply _ => ?_
  rw [mapOutput_eq_andThen]

variable [Operations Op]

/-- **Filling up cannot be told from running.**  For a parser that keeps the source, `n`
repetitions, where `n` is not zero, and the combination of `n` copies of the parser by a
function that lists its arguments end alike on every stream: with the same output and
remainder, the same failure, or the same fault. -/
theorem repeated_eq_combined (hp : p.KeepsSource) {n : Nat} (hn : 1 ≤ n) {f : Value Op}
    (hf : ∀ arguments : List (Value Op), arguments.length = n →
      (f.call arguments).ending = .done (.list arguments))
    (limit : Nat) (stream : Stream (Value Op)) :
    ∃ bounds combined, Bounds.ofRequest (some (.exactly n)) = .ok bounds
      ∧ combine f (List.replicate n p) = .ok combined
      ∧ ((p.repeated bounds limit).run stream {}).ending = (combined.run stream {}).ending := by
  have hparsers : List.replicate n p ≠ [] := by
    rw [Ne, List.replicate_eq_nil_iff]
    exact Nat.ne_of_gt hn
  obtain ⟨combined, hcombine, hrun⟩ := exists_combine f hparsers
  refine ⟨.exactly n, combined, Bounds.ofRequest_exactly n, hcombine, ?_⟩
  rw [repeated_exactly_ending hp, hrun]
  refine Run.ending_bind_congr rfl fun reply hreply => ?_
  cases reply with
  | failure failure => rfl
  | success outputs remainder =>
      have hcount : outputs.length = n := by
        rw [length_of_inTurn hreply, List.length_replicate]
      exact (Run.ending_bind_eq_done.mpr ⟨_, hf outputs hcount, rfl⟩).symm

/-- The third of four runs is stuck, and both ways list its output twice. -/
theorem four_repetitions_eq_combined :
    let p : Parser Stock := (token (.char 'a')).orElse (pure .nothing)
    let stream : Stream (Value Stock) := ⟨.whole (.text ['a', 'a', 'b']), 0⟩
    p.KeepsSource ∧ 1 ≤ 4
      ∧ (∀ arguments : List (Value Stock), arguments.length = 4 →
        (Stock.list.asValue.call arguments).ending = .done (.list arguments))
      ∧ ∃ bounds combined, Bounds.ofRequest (some (.exactly (4 : Nat))) = .ok bounds
        ∧ combine Stock.list.asValue (List.replicate 4 p) = .ok combined
        ∧ ((p.repeated bounds 0).run stream {}).ending = (combined.run stream {}).ending
        ∧ (combined.run stream {}).ending
          = .done (.success (.list [.char 'a', .char 'a', .nothing, .nothing])
              ⟨stream.source, 2⟩) := by
  intro p stream
  have hp : p.KeepsSource := Built.keepsSource (.orElse (.satisfying _ _ _) (.pure _))
  have hlist : ∀ arguments : List (Value Stock), arguments.length = 4 →
      (Stock.list.asValue.call arguments).ending = .done (.list arguments) := fun _ _ => rfl
  obtain ⟨bounds, combined, hbounds, hcombine, hends⟩ :=
    repeated_eq_combined hp (by decide) hlist 0 stream
  refine ⟨hp, by decide, hlist, bounds, combined, hbounds, hcombine, hends, ?_⟩
  rw [← hends]
  cases hbounds
  rfl

/-- **Numbers of repetitions add up.**  For a parser that keeps the source, `m + n`
repetitions end as `m` repetitions and then `n` more do, with the two lists put together:
with the same output and remainder, the same failure, or the same fault. -/
theorem repeated_add (hp : p.KeepsSource) (m n limit : Nat) (stream : Stream (Value Op)) :
    ∃ first second both, Bounds.ofRequest (some (.exactly m)) = .ok first
      ∧ Bounds.ofRequest (some (.exactly n)) = .ok second
      ∧ Bounds.ofRequest (some (.exactly (m + n : Nat))) = .ok both
      ∧ ((p.repeated both limit).run stream {}).ending
        = (((p.repeated first limit).concat.apply
            (p.repeated second limit)).run stream {}).ending := by
  refine ⟨.exactly m, .exactly n, .exactly (m + n), Bounds.ofRequest_exactly m,
    Bounds.ofRequest_exactly n, Bounds.ofRequest_exactly (m + n), ?_⟩
  rw [repeated_exactly_ending hp, ← List.replicate_append_replicate, inTurn_append (.inr rfl)]
  simp only [concat, map, apply, sequence, bind_assoc, andThen_bind_andThen, pure_bind,
    success_andThen]
  -- each repetition on the right is replaced by its runs in turn
  refine Eq.trans ?_ (Run.ending_bind_congr (repeated_exactly_ending hp m limit stream).symm
    fun _ _ => rfl)
  simp only [bind_assoc, andThen_bind_andThen, pure_bind, success_andThen]
  refine Run.ending_bind_congr rfl fun reply _ => ?_
  cases reply with
  | failure failure => rfl
  | success outputs middle =>
      simp only [success_andThen]
      refine Eq.trans ?_ (Run.ending_bind_congr (repeated_exactly_ending hp n limit middle).symm
        fun _ _ => rfl)
      simp only [bind_assoc, andThen_bind_andThen, pure_bind, success_andThen, Value.call_concatTo]
      rfl

/-- Both parts are filled up, the first after two tokens and the second from the start. -/
theorem three_and_two_repetitions :
    let p : Parser Stock := (token (.char 'a')).orElse (pure .nothing)
    let stream : Stream (Value Stock) := ⟨.whole (.text ['a', 'a', 'b']), 0⟩
    p.KeepsSource
      ∧ ∃ first second both, Bounds.ofRequest (some (.exactly (3 : Nat))) = .ok first
        ∧ Bounds.ofRequest (some (.exactly (2 : Nat))) = .ok second
        ∧ Bounds.ofRequest (some (.exactly (3 + 2 : Nat))) = .ok both
        ∧ ((p.repeated both 0).run stream {}).ending
          = (((p.repeated first 0).concat.apply (p.repeated second 0)).run stream {}).ending
        ∧ ((p.repeated both 0).run stream {}).ending
          = .done (.success (.list [.char 'a', .char 'a', .nothing, .nothing, .nothing])
              ⟨stream.source, 2⟩) := by
  intro p stream
  have hp : p.KeepsSource := Built.keepsSource (.orElse (.satisfying _ _ _) (.pure _))
  obtain ⟨first, second, both, hfirst, hsecond, hboth, hends⟩ := repeated_add hp 3 2 0 stream
  refine ⟨hp, first, second, both, hfirst, hsecond, hboth, hends, ?_⟩
  cases hboth
  rfl

end Parser

end Tokenwise
