import Tokenwise.Proofs.Parser.Repetition

/-!
# Asking for repetitions

How often a parser is to be repeated is asked for by a number, by a range, which leaves out
its end, or by inclusive bounds.  Each way stands for a set of numbers (`Bounds.Asked`), and
there are four reasons to refuse a request (`Bounds.Refused`): a count that comes with bounds of
its own, a range with gaps, a negative lower bound, and that nothing at all is asked for.

The first two are found at once.  What is left comes down to inclusive bounds around the numbers
that are asked for (`Bounds.ofRequest_eq_between`), and those are looked at for the other two.
So the bounds that a request is granted hold just the numbers it has asked for, and as a
repetition keeps to its bounds (`Parser.length_of_matches_repeated`) it delivers one of these
numbers of outputs (`Parser.requested_is_delivered`).
-/

namespace Tokenwise

/-- Whether a fault says that a request for repetitions makes no sense. -/
def Fault.RefusesRequest : Fault → Prop
  | countAndBounds | gappedRange | negativeLowerBound | emptyBounds _ _ => True
  | _ => False

namespace Count

/-- Whether a number is the exact one, or a member of the range. -/
def Asks : Count → Int → Prop
  | exactly n, k => k = n
  | range start stop step, k =>
      ∃ i : Nat, k = start + i * step ∧ (0 < step ∧ k < stop ∨ step < 0 ∧ stop < k)

/-- The least number of repetitions that a count allows if it allows any. -/
def lowerBound : Count → Int
  | exactly n => n
  | range start _ _ => start

end Count

namespace Bounds

/-- Whether a number lies between inclusive bounds, the upper one of which may be absent. -/
def Within (lower : Int) (upper : Option Int) (k : Int) : Prop :=
  lower ≤ k ∧ ∀ high ∈ upper, k ≤ high

/-- Whether a number is among those that a request asks for. -/
def Asked : Option Count → Int → Option Int → Int → Prop
  | some count, _, _ => count.Asks
  | none, atLeast, atMost => Within atLeast atMost

/-- The reasons to refuse a request for repetitions. -/
inductive Refused (count : Option Count) (atLeast : Int) (atMost : Option Int) : Prop
  /-- A count is given, and bounds other than the default ones. -/
  | countAndBounds (hcount : count.isSome) (hbounds : atLeast ≠ 0 ∨ atMost.isSome)
  /-- A range has a step other than one. -/
  | gapped {start stop step : Int} (hrange : count = some (.range start stop step))
      (hstep : step ≠ 1)
  /-- The lower bound is negative. -/
  | negative (hlower : count.elim atLeast Count.lowerBound < 0)
  /-- No number at all is asked for. -/
  | empty (hempty : ∀ k, ¬ Asked count atLeast atMost k)

variable {count : Option Count} {atLeast lower : Int} {atMost upper : Option Int}

theorem asks_exactly_iff {n k : Int} : (Count.exactly n).Asks k ↔ Within n (some n) k := by
  simp only [Count.Asks, Within, Option.mem_some_iff, forall_eq']
  omega

/-- The members of a range without gaps are the numbers up to the one before its end. -/
theorem asks_range_iff {start stop k : Int} :
    (Count.range start stop 1).Asks k ↔ Within start (some (stop - 1)) k := by
  simp only [Count.Asks, Within, Option.mem_some_iff, forall_eq']
  constructor
  · rintro ⟨i, hmember, hend⟩
    omega
  · rintro ⟨hstart, hend⟩
    exact ⟨(k - start).toNat, by omega, by omega⟩

/-- Inclusive bounds are refused if the lower one is negative or nothing lies between them. -/
theorem exists_fault_between (h : lower < 0 ∨ ∀ k, ¬ Within lower upper k) :
    ∃ fault, between lower upper = .error fault ∧ fault.RefusesRequest := by
  by_cases hnegative : lower < 0
  · exact ⟨.negativeLowerBound, if_pos hnegative, trivial⟩
  · have hempty : ¬ Within lower upper lower := h.resolve_left hnegative lower
    cases upper with
    | none => exact absurd ⟨Int.le_refl lower, nofun⟩ hempty
    | some high =>
        have hroom : ¬ lower ≤ high := by
          intro hle
          exact hempty ⟨Int.le_refl lower, fun _ hhigh => Option.mem_some.mp hhigh ▸ hle⟩
        refine ⟨.emptyBounds lower high, ?_, trivial⟩
        simp only [between, if_neg hnegative, dif_neg hroom]

/-- Other inclusive bounds are granted as they are. -/
theorem exists_bounds_between (h : ¬ (lower < 0 ∨ ∀ k, ¬ Within lower upper k)) :
    ∃ bounds : Bounds, between lower upper = .ok bounds ∧ lower = bounds.atLeast
      ∧ upper = bounds.atMost.map Int.ofNat := by
  have hnegative : ¬ lower < 0 := fun hneg => h (.inl hneg)
  have hlower : lower = lower.toNat := by omega
  cases upper with
  | none => exact ⟨_, if_neg hnegative, hlower, rfl⟩
  | some high =>
      have hroom : lower ≤ high := by
        refine Int.not_lt.mp fun hgap => h (.inr fun k hk => ?_)
        exact Int.not_le.mpr hgap (Int.le_trans hk.1 (hk.2 high rfl))
      have hupper : high = high.toNat := by omega
      exact ⟨_, (if_neg hnegative).trans (dif_pos hroom), hlower, congrArg some hupper⟩

/-- A request that neither mixes two ways to ask nor leaves gaps comes down to inclusive bounds
around the numbers that it asks for. -/
theorem ofRequest_eq_between (hmixed : ¬ (count.isSome ∧ (atLeast ≠ 0 ∨ atMost.isSome)))
    (hgaps : ¬ ∃ start stop step, count = some (.range start stop step) ∧ step ≠ 1) :
    ∃ upper, ofRequest count atLeast atMost = between (count.elim atLeast Count.lowerBound) upper
      ∧ ∀ k, Asked count atLeast atMost k
        ↔ Within (count.elim atLeast Count.lowerBound) upper k := by
  cases count with
  | none => exact ⟨atMost, rfl, fun _ => Iff.rfl⟩
  | some count =>
      have hdefault : ¬ (atLeast ≠ 0 ∨ atMost.isSome) := fun hbounds => hmixed ⟨rfl, hbounds⟩
      cases count with
      | exactly n =>
          refine ⟨some n, ?_, fun _ => asks_exactly_iff⟩
          simp only [ofRequest, if_neg hdefault]
          rfl
      | range start stop step =>
          obtain rfl : step = 1 :=
            Decidable.not_not.mp fun hstep => hgaps ⟨start, stop, step, rfl, hstep⟩
          refine ⟨some (stop - 1), ?_, fun _ => asks_range_iff⟩
          simp only [ofRequest, if_neg hdefault]
          rfl

/-- Each of the four reasons is enough. -/
theorem Refused.exists_fault (h : Refused count atLeast atMost) :
    ∃ fault, ofRequest count atLeast atMost = .error fault ∧ fault.RefusesRequest := by
  by_cases hmixed : count.isSome ∧ (atLeast ≠ 0 ∨ atMost.isSome)
  · obtain ⟨hcount, hbounds⟩ := hmixed
    obtain ⟨count, rfl⟩ := Option.isSome_iff_exists.mp hcount
    refine ⟨.countAndBounds, ?_, trivial⟩
    simp only [ofRequest, if_pos hbounds]
  · by_cases hgaps : ∃ start stop step, count = some (.range start stop step) ∧ step ≠ 1
    · obtain ⟨start, stop, step, rfl, hstep⟩ := hgaps
      have hdefault : ¬ (atLeast ≠ 0 ∨ atMost.isSome) := fun hbounds => hmixed ⟨rfl, hbounds⟩
      refine ⟨.gappedRange, ?_, trivial⟩
      simp only [ofRequest, if_neg hdefault, if_pos hstep]
    · obtain ⟨upper, hrequest, hasked⟩ := ofRequest_eq_between hmixed hgaps
      rw [hrequest]
      refine exists_fault_between ?_
      cases h with
      | countAndBounds hcount hbounds => exact absurd ⟨hcount, hbounds⟩ hmixed
      | gapped hrange hstep => exact absurd ⟨_, _, _, hrange, hstep⟩ hgaps
      | negative hlower => exact .inl hlower
      | empty hempty => exact .inr fun k hk => hempty k ((hasked k).mpr hk)

/-- Without any of them the bounds hold just the numbers that are asked for. -/
theorem exists_bounds_of_not_refused (h : ¬ Refused count atLeast atMost) :
    ∃ bounds : Bounds, ofRequest count atLeast atMost = .ok bounds
      ∧ ∀ k, Asked count atLeast atMost k
        ↔ Within bounds.atLeast (bounds.atMost.map Int.ofNat) k := by
  have hmixed : ¬ (count.isSome ∧ (atLeast ≠ 0 ∨ atMost.isSome)) :=
    fun ⟨hcount, hbounds⟩ => h (.countAndBounds hcount hbounds)
  have hgaps : ¬ ∃ start stop step, count = some (.range start stop step) ∧ step ≠ 1 :=
    fun ⟨_, _, _, hrange, hstep⟩ => h (.gapped hrange hstep)
  obtain ⟨upper, hrequest, hasked⟩ := ofRequest_eq_between hmixed hgaps
  have hgranted : ¬ (count.elim atLeast Count.lowerBound < 0
      ∨ ∀ k, ¬ Within (count.elim atLeast Count.lowerBound) upper k) := by
    rintro (hlower | hempty)
    · exact h (.negative hlower)
    · exact h (.empty fun k hk => hempty k ((hasked k).mp hk))
  obtain ⟨bounds, hbetween, hleast, hmost⟩ := exists_bounds_between hgranted
  refine ⟨bounds, hrequest.trans hbetween, fun k => ?_⟩
  rw [hasked k, hleast, hmost]

end Bounds

namespace Parser

variable {Op : Type}

/-- **What is asked for is delivered.**  A request for repetitions is refused just when a count
comes with bounds other than the default ones, a range has a step other than one, the lower
bound is negative, or no number at all is asked for.  Any other request is granted, and when a
parser that is repeated so matches, the number of its outputs is one that was asked for. -/
theorem requested_is_delivered (count : Option Count) (atLeast : Int) (atMost : Option Int) :
    ((∃ fault, Bounds.ofRequest count atLeast atMost = .error fault ∧ fault.RefusesRequest)
        ↔ Bounds.Refused count atLeast atMost)
      ∧ (¬ Bounds.Refused count atLeast atMost →
        ∃ bounds, Bounds.ofRequest count atLeast atMost = .ok bounds
          ∧ ∀ {p : Parser Op} {limit : Nat} {stream finish : Stream (Value Op)} {context : Context}
              {output : Value Op}, (p.repeated bounds limit).Matches stream context output finish →
            ∃ all : List (Value Op), output = .list all
              ∧ Bounds.Asked count atLeast atMost all.length) := by
  refine ⟨⟨?_, Bounds.Refused.exists_fault⟩, ?_⟩
  · rintro ⟨fault, hfault, -⟩
    refine Classical.byContradiction fun hgranted => ?_
    obtain ⟨bounds, hbounds, -⟩ := Bounds.exists_bounds_of_not_refused hgranted
    rw [hbounds] at hfault
    cases hfault
  · intro hgranted
    obtain ⟨bounds, hbounds, hasked⟩ := Bounds.exists_bounds_of_not_refused hgranted
    refine ⟨bounds, hbounds, fun hmatches => ?_⟩
    obtain ⟨all, houtput, hleast, hmost⟩ := length_of_matches_repeated hmatches
    refine ⟨all, houtput, (hasked _).mpr ⟨Int.ofNat_le.mpr hleast, fun high hhigh => ?_⟩⟩
    obtain ⟨n, hn, rfl⟩ := Option.map_eq_some_iff.mp hhigh
    exact Int.ofNat_le.mpr (hmost n hn)

/-- Two to four are asked for by a range that ends before five, and of five tokens four are
taken. -/
theorem four_of_range_to_five :
    let p : Parser Stock := token (.char 'a')
    let stream : Stream (Value Stock) := ⟨.whole (.text ['a', 'a', 'a', 'a', 'a']), 0⟩
    let count : Option Count := some (.range 2 5 1)
    let four : List (Value Stock) := [.char 'a', .char 'a', .char 'a', .char 'a']
    ¬ Bounds.Refused count 0 none
      ∧ ∃ bounds, Bounds.ofRequest count 0 none = .ok bounds
        ∧ (p.repeated bounds 0).Matches stream {} (.list four) ⟨stream.source, 4⟩
        ∧ Bounds.Asked count 0 none four.length := by
  intro p stream count four
  have hgranted : ¬ Bounds.Refused count 0 none := by
    intro hrefused
    obtain ⟨fault, hfault, -⟩ := (@requested_is_delivered Stock count 0 none).1.mpr hrefused
    cases hfault
  obtain ⟨bounds, hbounds, hdelivered⟩ :=
    (@requested_is_delivered Stock count 0 none).2 hgranted
  have hmatches : (p.repeated bounds 0).Matches stream {} (.list four) ⟨stream.source, 4⟩ := by
    cases hbounds
    rfl
  obtain ⟨all, hall, hasked⟩ := hdelivered hmatches
  cases hall
  exact ⟨hgranted, bounds, hbounds, hmatches, hasked⟩

end Parser

end Tokenwise
