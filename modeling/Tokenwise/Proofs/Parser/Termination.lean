import Tokenwise.Callable.Stock
import Tokenwise.Proofs.Parser.Onward
import Tokenwise.Proofs.Parser.Outcome

/-!
# A repetition ends

Nothing in the head of the loop decreases if there is no upper bound.  That the loop ends
all the same is due to its parser, which only goes on, and to the way out after a match that
has not: each run but the last one brings the loop closer to the end of the source
(`Parser.EndsOnward.length_visits_le`).  Outputs that are filled up take no runs, so the number
of runs is bounded by what is left of the input and has nothing to do with the bounds.

The runs are counted by `Parser.visits`, the streams at which the loop runs its parser.  It
leaves out nothing, since what the loop logs is what these runs log, one after another, and
at most one line of its own (`Parser.log_repeatFrom`).
-/

namespace Tokenwise

variable {Op : Type}

/-- Changing the value that a run is done with leaves its log alone. -/
theorem Run.log_bind_return {α β : Type} (run : Run Op α) (f : α → β) :
    (run >>= fun value => return f value).log = run.log := by
  rcases run with ⟨log, value | fault | _⟩
  · exact List.append_nil log
  · rfl
  · rfl

namespace Parser

variable {p : Parser Op} {context : Context} {size : Nat} {start stream : Stream (Value Op)}

/-- The streams at which a loop runs its parser, in order.  The last run is one that fails, does
not go on or raises a fault, or else the last one that is allowed. -/
def visits (p : Parser Op) (context : Context) :
    (allowed : Nat) → Stream (Value Op) → List (Stream (Value Op))
  | 0, _ => []
  | allowed + 1, stream =>
      stream ::
        match (p.run stream context).ending with
        | .done (.success _ remainder) =>
            if remainder.position = stream.position then []
            else p.visits context allowed remainder
        | _ => []

/-- The first run is the only one, or else it matches and goes on, and the others follow. -/
theorem visits_succ_cases (p : Parser Op) (context : Context) (allowed : Nat)
    (stream : Stream (Value Op)) :
    p.visits context (allowed + 1) stream = [stream]
      ∨ ∃ output remainder, p.Matches stream context output remainder
        ∧ remainder.position ≠ stream.position
        ∧ p.visits context (allowed + 1) stream = stream :: p.visits context allowed remainder := by
  cases hending : (p.run stream context).ending with
  | done reply =>
      cases reply with
      | success output remainder =>
          by_cases hstay : remainder.position = stream.position
          · exact .inl (by simp only [visits, hending, if_pos hstay])
          · exact .inr ⟨output, remainder, hending, hstay,
              by simp only [visits, hending, if_neg hstay]⟩
      | failure failure => exact .inl (by simp only [visits, hending])
  | raised fault => exact .inl (by simp only [visits, hending])
  | unfinished => exact .inl (by simp only [visits, hending])

/-- **A loop runs its parser where it says.**  Its log is made up of the logs of these runs,
in order, and at most one event of its own at the end. -/
theorem log_repeatFrom (p : Parser Op) (context : Context) (bounded : Bool) (allowed needed : Nat)
    (stream : Stream (Value Op)) :
    ∃ own : List (Event Op), own.length ≤ 1
      ∧ (p.repeatFrom context bounded allowed needed stream).log
        = (p.visits context allowed stream).flatMap (fun here => (p.run here context).log)
          ++ own := by
  induction allowed generalizing needed stream with
  | zero => cases bounded <;> exact ⟨[], Nat.zero_le 1, rfl⟩
  | succ allowed ih =>
      rw [repeatFrom, visits, List.flatMap_cons]
      cases hrun : p.run stream context with
      | mk log ending =>
          cases ending with
          | done reply =>
              cases reply with
              | success output remainder =>
                  by_cases hstay : remainder.position = stream.position
                  · refine ⟨[.noProgress stream.position], Nat.le_refl 1, ?_⟩
                    simp [hstay, Run.report, Run.pure_def]
                  · obtain ⟨own, hown, hlog⟩ := ih (needed - 1) remainder
                    refine ⟨own, hown, ?_⟩
                    simp only [Run.bind_done, if_neg hstay, Run.log_bind_return, hlog,
                      List.append_assoc]
              | failure failure =>
                  refine ⟨[], Nat.zero_le 1, ?_⟩
                  by_cases henough : needed = 0 <;> simp [henough, Run.pure_def]
          | raised fault => exact ⟨[], Nat.zero_le 1, by simp⟩
          | unfinished => exact ⟨[], Nat.zero_le 1, by simp⟩

/-- Whether from `start` on all runs of a parser come to an end, and its matches go on in the
source, which has `size` tokens, and not past its end. -/
structure EndsOnward (p : Parser Op) (context : Context) (size : Nat) (start : Stream (Value Op)) :
    Prop where
  ends : ∀ {here : Stream (Value Op)}, start.Onward size here →
    (p.run here context).ending ≠ .unfinished
  onward : ∀ {here : Stream (Value Op)} {output : Value Op} {remainder : Stream (Value Op)},
    start.Onward size here → p.Matches here context output remainder → here.Onward size remainder

namespace EndsOnward

/-- What is so from one place on is so from any later one. -/
theorem after (h : p.EndsOnward context size start) (hon : start.Onward size stream) :
    p.EndsOnward context size stream where
  ends := fun hhere => h.ends (hon.trans hhere)
  onward := fun hhere => h.onward (hon.trans hhere)

/-- A match that does not stay where it is comes closer to the end. -/
theorem lt_of_moved (h : p.EndsOnward context size stream) (hend : stream.position ≤ size)
    {output : Value Op} {remainder : Stream (Value Op)}
    (hmatches : p.Matches stream context output remainder)
    (hmoved : remainder.position ≠ stream.position) :
    stream.Onward size remainder ∧ stream.position < remainder.position := by
  have hon : stream.Onward size remainder := h.onward ⟨rfl, Int.le_refl _, hend⟩ hmatches
  exact ⟨hon, Int.lt_iff_le_and_ne.mpr ⟨hon.forward, hmoved.symm⟩⟩

/-- A loop runs its parser once for each token that is left, and once more, at most. -/
theorem length_visits_le (h : p.EndsOnward context size stream) (hend : stream.position ≤ size)
    (allowed : Nat) :
    ((p.visits context allowed stream).length : Int) ≤ size - stream.position + 1 := by
  induction allowed generalizing stream with
  | zero =>
      simp only [visits, List.length_nil]
      omega
  | succ allowed ih =>
      obtain honly | ⟨output, remainder, hmatches, hmoved, hmore⟩ :=
        visits_succ_cases p context allowed stream
      · rw [honly, List.length_singleton]
        omega
      · obtain ⟨hon, hlt⟩ := h.lt_of_moved hend hmatches hmoved
        have hcount : ((p.visits context allowed remainder).length : Int)
            ≤ size - remainder.position + 1 := ih (h.after hon) hon.inside
        rw [hmore, List.length_cons]
        omega

/-- A loop that may run its parser more often than there are tokens left comes to an end. -/
theorem repeatFrom_ends (h : p.EndsOnward context size stream) (hend : stream.position ≤ size)
    {bounded : Bool} {allowed : Nat} (needed : Nat)
    (hallowed : bounded = false → (size : Int) - stream.position < allowed) :
    (p.repeatFrom context bounded allowed needed stream).ending ≠ .unfinished := by
  induction allowed generalizing needed stream with
  | zero =>
      cases bounded with
      | true => exact nofun
      | false =>
          have hlt := hallowed rfl
          omega
  | succ allowed ih =>
      intro hunfinished
      obtain hrun | ⟨output, middle, hmatches, hmoved, hmore⟩ :=
        repeatFrom_ending_eq_unfinished_iff.mp hunfinished
      · exact h.ends ⟨rfl, Int.le_refl _, hend⟩ hrun
      · obtain ⟨hon, hlt⟩ := h.lt_of_moved hend hmatches hmoved
        refine ih (h.after hon) hon.inside (needed - 1) (fun hunbounded => ?_) hmore
        have hroom : (size : Int) - stream.position < (allowed + 1 : Nat) := hallowed hunbounded
        omega

end EndsOnward

/-- A parser that only goes on does so from any place in a source, if its runs there come to
an end. -/
theorem Advances.endsOnward (hp : p.Advances) (hsize : start.source.size = .ok size)
    (hends : ∀ {here}, start.Onward size here → (p.run here context).ending ≠ .unfinished) :
    p.EndsOnward context size start where
  ends := hends
  onward := by
    intro here output remainder hhere hmatches
    have hinside : here.Inside size := ⟨hhere.source ▸ hsize, hhere.inside⟩
    exact hp hinside hmatches

/-- **Every repetition ends.**  Let the runs of a parser come to an end from where a stream
stands to the end of its source, and its matches only go on there.  Then the repetition comes to
an end, whatever its bounds are, and if there is no upper bound, under any limit above the number
of tokens left.  It runs its parser once for each token that is left, and once more, at most; its
log consists of the logs of these runs and at most one event. -/
theorem repeated_ends {limit : Nat} (bounds : Bounds) (hinside : stream.Inside size)
    (h : p.EndsOnward context size stream)
    (hlimit : bounds.atMost = none → (size : Int) - stream.position < limit) :
    ((p.repeated bounds limit).run stream context).ending ≠ .unfinished
      ∧ ((p.visits context (bounds.atMost.getD limit) stream).length : Int)
        ≤ size - stream.position + 1
      ∧ ∃ own : List (Event Op), own.length ≤ 1
        ∧ ((p.repeated bounds limit).run stream context).log
          = (p.visits context (bounds.atMost.getD limit) stream).flatMap
              (fun here => (p.run here context).log) ++ own := by
  have hallowed : bounds.atMost.isSome = false →
      (size : Int) - stream.position < bounds.atMost.getD limit := by
    intro hunbounded
    rw [Option.isSome_eq_false_iff, Option.isNone_iff_eq_none] at hunbounded
    rw [hunbounded]
    exact hlimit hunbounded
  refine ⟨?_, h.length_visits_le hinside.2 _, ?_⟩
  · intro hunfinished
    rw [repeated, Run.ending_bind_eq_unfinished] at hunfinished
    obtain hloop | ⟨reply, -, hlast⟩ := hunfinished
    · exact h.repeatFrom_ends hinside.2 bounds.atLeast hallowed hloop
    · cases hlast
  · rw [repeated, Run.log_bind_return]
    exact log_repeatFrom p context bounds.atMost.isSome _ bounds.atLeast stream

/-- A thousand outputs are asked for where two tokens match, and the parser is run three times. -/
theorem thousand_repetitions_end :
    let p : Parser Stock := (token (.char 'a')).orElse (pure .nothing)
    let stream : Stream (Value Stock) := ⟨.whole (.text ['-', 'a', 'a', '-']), 1⟩
    stream.Inside 4 ∧ p.EndsOnward {} 4 stream
      ∧ ((p.repeated ⟨1000, none, nofun⟩ 4).run stream {}).ending ≠ .unfinished
      ∧ ((p.visits {} 4 stream).length : Int) ≤ 4 - 1 + 1
      ∧ (p.visits {} 4 stream).map Stream.position = [1, 2, 3] := by
  intro p stream
  have hinside : stream.Inside 4 := ⟨rfl, by decide⟩
  have hbuilt : p.Built fun _ => False := .orElse (.satisfying _ _ _) (.pure _)
  have hends : ∀ {here}, stream.Onward 4 here → (p.run here {}).ending ≠ .unfinished := by
    rintro ⟨source, position⟩ ⟨hsource, hforward, hend⟩
    obtain rfl : source = stream.source := hsource
    have hplace : position = 1 ∨ position = 2 ∨ position = 3 ∨ position = 4 := by
      change (1 : Int) ≤ position at hforward
      change position ≤ (4 : Nat) at hend
      omega
    obtain rfl | rfl | rfl | rfl := hplace <;> exact nofun
  have hadvances : p.Advances := hbuilt.advances fun _ h => h.elim
  have honward : p.EndsOnward {} 4 stream := hadvances.endsOnward rfl hends
  obtain ⟨hfinished, hruns, -⟩ : ((p.repeated ⟨1000, none, nofun⟩ 4).run stream {}).ending
      ≠ .unfinished ∧ ((p.visits {} 4 stream).length : Int) ≤ (4 : Nat) - 1 + 1 ∧ _ :=
    repeated_ends ⟨1000, none, nofun⟩ hinside honward (fun _ => by decide)
  exact ⟨hinside, honward, hfinished, hruns, rfl⟩

end Parser

end Tokenwise
