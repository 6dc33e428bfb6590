import Tokenwise.Parser.Basic

/-!
# Repetition

How often a parser is to be repeated is asked for by an exact count, a range of
counts, or inclusive bounds.  `Bounds.ofRequest` refuses what makes no sense,
and the bounds it gives always leave room for some count.

`Parser.repeated` applies a parser as often as it matches.  It stops at the
upper bound, at a failure, and after a run that has consumed nothing: such a
parser would go on producing the same output, so the list is filled up with it
to the lower bound.  A repetition without an upper bound takes a limit on the
number of runs, and is unfinished if it would need more.
-/

namespace Tokenwise

/-- An exact request for a number of repetitions. -/
inductive Count where
  | exactly (n : Int)
  /-- The numbers from `start` on, up to but not including `stop`. -/
  | range (start stop step : Int)
  deriving DecidableEq, Repr

/-- A range of counts, which has to advance. -/
def Count.ofRange (start stop step : Int) : Except Fault Count :=
  if step = 0 then .error .zeroStep else .ok (.range start stop step)

/-- The least and the greatest number of repetitions. -/
structure Bounds where
  atLeast : Nat
  atMost : Option Nat
  nonempty : ∀ n ∈ atMost, atLeast ≤ n

namespace Bounds

/-- The inclusive bounds from `atLeast` to `atMost`. -/
def between (atLeast : Int) (atMost : Option Int) : Except Fault Bounds :=
  if atLeast < 0 then .error .negativeLowerBound
  else
    match atMost with
    | none => .ok ⟨atLeast.toNat, none, nofun⟩
    | some high =>
        if h : atLeast ≤ high then
          have hbounds : ∀ n ∈ some high.toNat, atLeast.toNat ≤ n := by
            intro n hn
            rw [← Option.mem_some.mp hn]
            exact Int.toNat_le_toNat h
          .ok ⟨atLeast.toNat, some high.toNat, hbounds⟩
        else .error (.emptyBounds atLeast high)

/-- The bounds that a request stands for.  A count cannot be asked for together
with bounds of its own. -/
def ofRequest (count : Option Count) (atLeast : Int := 0) (atMost : Option Int := none) :
    Except Fault Bounds :=
  match count with
  | none => between atLeast atMost
  | some count =>
      if atLeast ≠ 0 ∨ atMost.isSome then .error .countAndBounds
      else
        match count with
        | .exactly n => between n (some n)
        | .range start stop step =>
            if step ≠ 1 then .error .gappedRange else between start (some (stop - 1))

/-- Any number of times. -/
def any : Bounds := ⟨0, none, by simp⟩

end Bounds

namespace Parser

variable {Op : Type}

/-- Applies `p` up to `allowed` times, with `needed` outputs still missing.
When all runs are used up the repetition is over if `bounded`, and unfinished
otherwise. -/
def repeatFrom (p : Parser Op) (context : Context) (bounded : Bool) :
    (allowed needed : Nat) → Stream (Value Op) → Run Op (Reply Op (List (Value Op)))
  | 0, _, stream => if bounded then return .success [] stream else Run.unfinished
  | allowed + 1, needed, stream => do
      match ← p.run stream context with
      | .failure failure =>
          if needed = 0 then return .success [] stream else return .failure failure
      | .success output remainder =>
          if remainder.position = stream.position then
            Run.report (.noProgress stream.position)
            return .success (output :: List.replicate (needed - 1) output) stream
          else
            let reply ← p.repeatFrom context bounded allowed (needed - 1) remainder
            return reply.mapOutput (output :: ·)

/-- Applies `p` repeatedly and produces the list of outputs.  The limit is for
a repetition that has no upper bound. -/
def repeated (p : Parser Op) (bounds : Bounds) (limit : Nat) : Parser Op where
  run stream context := do
    let reply ← p.repeatFrom context bounds.atMost.isSome (bounds.atMost.getD limit)
      bounds.atLeast stream
    return reply.mapOutput .list

end Parser

end Tokenwise
