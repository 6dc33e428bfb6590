import Tokenwise.Callable.Stock
import Tokenwise.Proofs.Parser.Outcome

/-!
# What a repetition does

A repetition runs its parser again and again in the context it has been given, each time
where the run before has stopped.  All runs but the last one match and go on, so they form
a chain (`Parser.Progress`), and the outputs along it are those of the repetition.  Where
the chain ends, the loop is left by one of four exits (`Parser.Exit`).  The upper bound is
looked at before the parser is run, a failure counts by the outputs that are there by then,
and a match that has not gone on is the only one that is filled up to the lower bound.

`Parser.repeated_done_iff` says that nothing else happens: a repetition is done with a reply
just when a chain leads to an exit with this reply.
-/

namespace Tokenwise.Parser

variable {Op : Type} {p : Parser Op} {context : Context} {stream here : Stream (Value Op)}
  {outputs : List (Value Op)}

/-- Matches of a parser one after another, in one context, each of which ends at another
position than it has begun at. -/
inductive Progress (p : Parser Op) (context : Context) :
    Stream (Value Op) → List (Value Op) → Stream (Value Op) → Prop
  | nil (stream : Stream (Value Op)) : Progress p context stream [] stream
  | cons {stream middle here : Stream (Value Op)} {output : Value Op} {outputs : List (Value Op)}
      (hmatches : p.Matches stream context output middle)
      (hmoved : middle.position ≠ stream.position)
      (tail : Progress p context middle outputs here) :
      Progress p context stream (output :: outputs) here

/-- The four exits of a repetition that has come to `here`, with `outputs` so far. -/
inductive Exit (p : Parser Op) (context : Context) (atLeast : Nat) (atMost : Option Nat)
    (outputs : List (Value Op)) (here : Stream (Value Op)) : Reply Op (List (Value Op)) → Prop
  /-- There are as many outputs as there may be. -/
  | full (hfull : atMost = some outputs.length) :
      Exit p context atLeast atMost outputs here (.success outputs here)
  /-- The parser fails, but no output is missing. -/
  | enough {failure : Failure (Value Op)} (hroom : ∀ n ∈ atMost, outputs.length < n)
      (hfails : p.Fails here context failure) (henough : atLeast ≤ outputs.length) :
      Exit p context atLeast atMost outputs here (.success outputs here)
  /-- The parser fails, and an output is missing. -/
  | missing {failure : Failure (Value Op)} (hroom : ∀ n ∈ atMost, outputs.length < n)
      (hfails : p.Fails here context failure) (hmissing : outputs.length < atLeast) :
      Exit p context atLeast atMost outputs here (.failure failure)
  /-- The parser matches, but has not gone on.  Its output stands for the missing ones. -/
  | stuck {last : Value Op} {finish : Stream (Value Op)}
      (hroom : ∀ n ∈ atMost, outputs.length < n)
      (hmatches : p.Matches here context last finish) (hstay : finish.position = here.position) :
      Exit p context atLeast atMost outputs here
        (.success (outputs ++ last :: List.replicate (atLeast - (outputs.length + 1)) last) here)

section Cons

variable {atLeast : Nat} {atMost : Option Nat} {output : Value Op}

/-- There is room for one more output below a bound that is one higher. -/
theorem room_cons_iff :
    (∀ n ∈ atMost.map (· + 1), (output :: outputs).length < n)
      ↔ ∀ n ∈ atMost, outputs.length < n := by
  cases atMost <;> simp

/-- With one more output in front, both bounds are one higher. -/
theorem exit_cons_iff {reply : Reply Op (List (Value Op))} :
    p.Exit context atLeast (atMost.map (· + 1)) (output :: outputs) here reply
      ↔ ∃ more, p.Exit context (atLeast - 1) atMost outputs here more
          ∧ reply = more.mapOutput (output :: ·) := by
  have hcopies : atLeast - ((output :: outputs).length + 1)
      = atLeast - 1 - (outputs.length + 1) := by
    rw [List.length_cons]
    omega
  constructor
  · intro h
    cases h with
    | full hfull =>
        obtain ⟨n, hn, hlength⟩ := Option.map_eq_some_iff.mp hfull
        rw [List.length_cons, Nat.succ_inj] at hlength
        exact ⟨_, .full (hlength ▸ hn), rfl⟩
    | enough hroom hfails henough =>
        rw [List.length_cons] at henough
        exact ⟨_, .enough (room_cons_iff.mp hroom) hfails (by omega), rfl⟩
    | missing hroom hfails hmissing =>
        rw [List.length_cons] at hmissing
        exact ⟨_, .missing (room_cons_iff.mp hroom) hfails (by omega), rfl⟩
    | stuck hroom hmatches hstay =>
        rw [hcopies]
        exact ⟨_, .stuck (room_cons_iff.mp hroom) hmatches hstay, rfl⟩
  · rintro ⟨more, hexit, rfl⟩
    cases hexit with
    | full hfull =>
        subst hfull
        exact .full rfl
    | enough hroom hfails henough =>
        refine .enough (room_cons_iff.mpr hroom) hfails ?_
        rw [List.length_cons]
        omega
    | missing hroom hfails hmissing =>
        refine .missing (room_cons_iff.mpr hroom) hfails ?_
        rw [List.length_cons]
        omega
    | stuck hroom hmatches hstay =>
        rw [← hcopies]
        exact .stuck (room_cons_iff.mpr hroom) hmatches hstay

end Cons

section Loop

variable {bounded : Bool} {allowed needed : Nat} {reply : Reply Op (List (Value Op))}

/-- The upper bound of a loop that is left after `allowed` runs if it is `bounded`. -/
def upperBound (bounded : Bool) (allowed : Nat) : Option Nat :=
  if bounded then some allowed else none

theorem upperBound_succ (bounded : Bool) (allowed : Nat) :
    upperBound bounded (allowed + 1) = (upperBound bounded allowed).map (· + 1) := by
  cases bounded <;> rfl

theorem upperBound_of_bounds (atMost : Option Nat) (limit : Nat) :
    upperBound atMost.isSome (atMost.getD limit) = atMost := by
  cases atMost <;> rfl

/-- The first run of a loop stays below its upper bound. -/
theorem zero_lt_of_mem_upperBound_succ {n : Nat} (h : n ∈ upperBound bounded (allowed + 1)) :
    0 < n := by
  rw [upperBound_succ] at h
  obtain ⟨m, -, rfl⟩ := Option.map_eq_some_iff.mp h
  exact Nat.succ_pos m

/-- A loop that is done has come by a chain of matches to one of its exits. -/
theorem exists_exit_of_repeatFrom
    (h : (p.repeatFrom context bounded allowed needed stream).ending = .done reply) :
    ∃ outputs here, p.Progress context stream outputs here
      ∧ p.Exit context needed (upperBound bounded allowed) outputs here reply := by
  induction allowed generalizing needed stream reply with
  | zero =>
      cases bounded with
      | false => cases h
      | true =>
          cases h
          exact ⟨[], stream, .nil stream, .full rfl⟩
  | succ allowed ih =>
      have hroom : ∀ n ∈ upperBound bounded (allowed + 1), ([] : List (Value Op)).length < n :=
        fun n hn => zero_lt_of_mem_upperBound_succ hn
      rcases repeatFrom_ending_eq_done_iff.mp h with ⟨failure, hfails, rfl⟩
        | ⟨output, finish, hmatches, hstay, rfl⟩
        | ⟨output, middle, more, hmatches, hmoved, hmore, rfl⟩
      · refine ⟨[], stream, .nil stream, ?_⟩
        by_cases henough : needed = 0
        · rw [if_pos henough]
          exact .enough hroom hfails (Nat.le_of_eq henough)
        · rw [if_neg henough]
          exact .missing hroom hfails (Nat.pos_of_ne_zero henough)
      · exact ⟨[], stream, .nil stream, .stuck hroom hmatches hstay⟩
      · obtain ⟨outputs, here, hprogress, hexit⟩ := ih hmore
        refine ⟨output :: outputs, here, .cons hmatches hmoved hprogress, ?_⟩
        rw [upperBound_succ]
        exact exit_cons_iff.mpr ⟨more, hexit, rfl⟩

/-- Where a loop has room for another output it is allowed another run. -/
theorem lt_allowed_of_room {count : Nat} (hroom : ∀ n ∈ upperBound bounded allowed, count < n)
    (hallowed : bounded = false → count < allowed) : count < allowed := by
  cases bounded with
  | false => exact hallowed rfl
  | true => exact hroom allowed rfl

/-- A loop is allowed all the runs that lead to an exit of it. -/
theorem Exit.length_le_allowed
    (h : p.Exit context needed (upperBound bounded allowed) outputs here reply)
    (hallowed : bounded = false → outputs.length < allowed) : outputs.length ≤ allowed := by
  cases h with
  | full hfull =>
      cases bounded with
      | false => cases hfull
      | true => exact Nat.le_of_eq (Option.some.inj hfull).symm
  | enough hroom | missing hroom | stuck hroom =>
      exact Nat.le_of_lt (lt_allowed_of_room hroom hallowed)

/-- A loop that stands at an exit takes it. -/
theorem repeatFrom_of_exit_nil
    (hexit : p.Exit context needed (upperBound bounded allowed) [] stream reply)
    (hallowed : bounded = false → 0 < allowed) :
    (p.repeatFrom context bounded allowed needed stream).ending = .done reply := by
  cases hexit with
  | full hfull =>
      cases bounded with
      | false => cases hfull
      | true =>
          obtain rfl : allowed = 0 := Option.some.inj hfull
          rfl
  | enough hroom hfails henough =>
      obtain ⟨n, rfl⟩ := Nat.exists_eq_add_one.mpr (lt_allowed_of_room hroom hallowed)
      obtain rfl : needed = 0 := Nat.le_zero.mp henough
      exact repeatFrom_of_fails hfails
  | missing hroom hfails hmissing =>
      obtain ⟨n, rfl⟩ := Nat.exists_eq_add_one.mpr (lt_allowed_of_room hroom hallowed)
      have hneeded : needed ≠ 0 := Nat.ne_of_gt hmissing
      exact repeatFrom_ending_eq_failure_iff.mpr (.inl ⟨hneeded, hfails⟩)
  | stuck hroom hmatches hstay =>
      obtain ⟨n, rfl⟩ := Nat.exists_eq_add_one.mpr (lt_allowed_of_room hroom hallowed)
      exact repeatFrom_ending_eq_done_iff.mpr (.inr (.inl ⟨_, _, hmatches, hstay, rfl⟩))

/-- A loop that a chain of matches leads to one of its exits is done.  Without an upper bound
it has to be allowed more runs than the chain has. -/
theorem repeatFrom_of_progress (hprogress : p.Progress context stream outputs here)
    (hexit : p.Exit context needed (upperBound bounded allowed) outputs here reply)
    (hallowed : bounded = false → outputs.length < allowed) :
    (p.repeatFrom context bounded allowed needed stream).ending = .done reply := by
  induction hprogress generalizing allowed needed reply with
  | nil stream => exact repeatFrom_of_exit_nil hexit hallowed
  | @cons stream middle here output outputs hmatches hmoved tail ih =>
      obtain ⟨n, rfl⟩ : ∃ n, allowed = n + 1 :=
        Nat.exists_eq_add_one.mpr (Nat.zero_lt_of_lt (hexit.length_le_allowed hallowed))
      rw [upperBound_succ] at hexit
      obtain ⟨more, hmore, rfl⟩ := exit_cons_iff.mp hexit
      have hloop : (p.repeatFrom context bounded n (needed - 1) middle).ending = .done more :=
        ih hmore fun hunbounded => Nat.lt_of_succ_lt_succ (hallowed hunbounded)
      exact repeatFrom_ending_eq_done_iff.mpr
        (.inr (.inr ⟨output, middle, more, hmatches, hmoved, hloop, rfl⟩))

end Loop

variable {bounds : Bounds}

/-- A repetition that is done has come by a chain of matches to one of its exits. -/
theorem exists_exit_of_repeated {limit : Nat} {reply : Reply Op (Value Op)}
    (h : ((p.repeated bounds limit).run stream context).ending = .done reply) :
    ∃ outputs here verdict, p.Progress context stream outputs here
      ∧ p.Exit context bounds.atLeast bounds.atMost outputs here verdict
      ∧ reply = verdict.mapOutput .list := by
  rw [repeated, Run.ending_bind_eq_done] at h
  obtain ⟨verdict, hloop, hreply⟩ := h
  cases hreply
  obtain ⟨outputs, here, hprogress, hexit⟩ := exists_exit_of_repeatFrom hloop
  rw [upperBound_of_bounds] at hexit
  exact ⟨outputs, here, verdict, hprogress, hexit, rfl⟩

/-- A chain of matches that leads to an exit is what a repetition does, if its runs are enough. -/
theorem repeated_of_progress {limit : Nat} {verdict : Reply Op (List (Value Op))}
    (hprogress : p.Progress context stream outputs here)
    (hexit : p.Exit context bounds.atLeast bounds.atMost outputs here verdict)
    (hlimit : bounds.atMost = none → outputs.length < limit) :
    ((p.repeated bounds limit).run stream context).ending = .done (verdict.mapOutput .list) := by
  rw [repeated, Run.ending_bind_eq_done]
  refine ⟨verdict, repeatFrom_of_progress hprogress ?_ ?_, rfl⟩
  · rwa [upperBound_of_bounds]
  · intro hunbounded
    rw [Option.isSome_eq_false_iff, Option.isNone_iff_eq_none] at hunbounded
    rw [hunbounded]
    exact hlimit hunbounded

/-- **What a repetition does.**  For some limit on its runs a repetition is done with a reply
just when a chain of matches of its parser, in the same context and each of them going on,
leads to one of the four exits with this reply. -/
theorem repeated_done_iff {reply : Reply Op (Value Op)} :
    (∃ limit, ((p.repeated bounds limit).run stream context).ending = .done reply)
      ↔ ∃ outputs here verdict, p.Progress context stream outputs here
        ∧ p.Exit context bounds.atLeast bounds.atMost outputs here verdict
        ∧ reply = verdict.mapOutput .list := by
  constructor
  · rintro ⟨limit, hdone⟩
    exact exists_exit_of_repeated hdone
  · rintro ⟨outputs, here, verdict, hprogress, hexit, rfl⟩
    refine ⟨outputs.length + 1, ?_⟩
    rw [repeated, Run.ending_bind_eq_done]
    refine ⟨verdict, repeatFrom_of_progress hprogress ?_ ?_, rfl⟩
    · rwa [upperBound_of_bounds]
    · intro hunbounded
      rw [Option.isSome_eq_false_iff, Option.isNone_iff_eq_none] at hunbounded
      rw [hunbounded]
      exact Nat.lt_succ_self outputs.length

/-- A run that stays where it is ends the repetition, and its output fills the list up. -/
example :
    let tokens : Parser Stock := (token (.char 'a')).orElse (pure .nothing)
    let stream : Stream (Value Stock) := ⟨.whole (.text ['a', 'b']), 0⟩
    (tokens.repeated ⟨4, none, nofun⟩ 9).Matches stream {}
      (.list [.char 'a', .nothing, .nothing, .nothing]) ⟨stream.source, 1⟩ :=
  rfl

/-- A success at an exit has as many outputs as the bounds allow. -/
theorem length_within_bounds_of_exit {all : List (Value Op)} {finish : Stream (Value Op)}
    (h : p.Exit context bounds.atLeast bounds.atMost outputs here (.success all finish)) :
    bounds.atLeast ≤ all.length ∧ ∀ n ∈ bounds.atMost, all.length ≤ n := by
  cases h with
  | full hfull =>
      refine ⟨bounds.nonempty _ hfull, fun n hn => ?_⟩
      rw [hfull] at hn
      exact Nat.le_of_eq (Option.mem_some.mp hn)
  | enough hroom _ henough => exact ⟨henough, fun n hn => Nat.le_of_lt (hroom n hn)⟩
  | stuck hroom _ _ =>
      simp only [List.length_append, List.length_cons, List.length_replicate]
      refine ⟨by omega, fun n hn => ?_⟩
      have hbelow : outputs.length < n := hroom n hn
      have hleast : bounds.atLeast ≤ n := bounds.nonempty n hn
      omega

/-- **As many as asked for.**  A repetition that matches has a list for its output, with as
many items as its bounds allow. -/
theorem length_of_matches_repeated {limit : Nat} {output : Value Op} {finish : Stream (Value Op)}
    (h : (p.repeated bounds limit).Matches stream context output finish) :
    ∃ all, output = .list all ∧ bounds.atLeast ≤ all.length
      ∧ ∀ n ∈ bounds.atMost, all.length ≤ n := by
  obtain ⟨outputs, here, verdict, -, hexit, hreply⟩ := exists_exit_of_repeated h
  cases verdict with
  | success all last =>
      cases hreply
      exact ⟨all, rfl, length_within_bounds_of_exit hexit⟩
  | failure failure => cases hreply

end Tokenwise.Parser
