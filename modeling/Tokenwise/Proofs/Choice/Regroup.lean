import Tokenwise.Callable.Stock
import Tokenwise.Proofs.Choice.Chain
import Tokenwise.Proofs.Parser.Labels
import Tokenwise.Proofs.Value.Distinct

/-!
# How choices group

Whether `(p | q) | r` or `p | (q | r)` is written makes a difference to the failure only.
Both run the same parsers in the same order, and both go on in the same places.  What is
left is in which order the three failures at the start are merged, and merging is not
associative: what has been expected of another kind is dropped from the left, so a failure
of another kind in the middle drops the first failure in one grouping and is itself
dropped first in the other (`Failure.merge_of_interrupted`).  Around no such failure the
two orders agree to the item (`Failure.merge_assoc`), since leaving out items seen before
is associative (`Descriptor.merge_assoc`).

A choice between unmarked parsers is read as going on after a failure at the start
(`Reply.retry`), which chains like any sequencing does (`Reply.retry_bind_retry`).  Both
groupings come down to one run with a hole for the failure of all three
(`Parser.firstOfThree`).
-/

namespace Tokenwise

variable {Op : Type}

theorem Expected.exists_described_of_kind {α : Type} {e : Expected α} {kind : Descriptor.Kind}
    (h : e.kind = some (some kind)) : ∃ d, e = .described d ∧ d.kind = kind := by
  cases e with
  | unknown | endOfInput => simp [Expected.kind] at h
  | described d => exact ⟨d, rfl, Option.some.inj (Option.some.inj h)⟩

namespace Failure

variable {first second third left right : Failure (Value Op)}

/-- What the second failure expected stands if that is of another kind. -/
theorem merge_of_kind_ne (h : left.expected.kind ≠ right.expected.kind) :
    left.merge right = right := by
  unfold merge
  split
  case h_1 d e hleft hright =>
      have hkind : d.kind ≠ e.kind := by
        intro heq
        rw [hleft, hright] at h
        exact h (congrArg (fun kind => some (some kind)) heq)
      rw [if_neg hkind]
  case h_2 => rfl

/-- Failures that expected descriptors of one kind report both of them. -/
theorem merge_of_described {d e : Descriptor (Value Op)} (hleft : left.expected = .described d)
    (hright : right.expected = .described e) (hkind : d.kind = e.kind) :
    left.merge right = { expected := .described (d.merge e), actual := right.actual,
                         remainder := right.remainder } := by
  simp only [merge, hleft, hright, if_pos hkind]

/-- What the second failure expected stands if it is no descriptor. -/
theorem merge_of_not_described (h : ∀ d, right.expected ≠ .described d) :
    left.merge right = right := by
  unfold merge
  split
  case h_1 d e _ hright => exact absurd hright (h e)
  case h_2 => rfl

/-- Whether the outer two of three failures expected descriptors of one kind, and the one
between them did not. -/
def Interrupted (first second third : Failure (Value Op)) : Prop :=
  ∃ kind, first.expected.kind = some (some kind) ∧ third.expected.kind = some (some kind)
    ∧ second.expected.kind ≠ some (some kind)

/-- Three descriptors of one kind are merged in any order. -/
theorem merge_assoc_of_described {d e f : Descriptor (Value Op)}
    (hfirst : first.expected = .described d) (hsecond : second.expected = .described e)
    (hthird : third.expected = .described f) (hde : d.kind = e.kind) (hef : e.kind = f.kind) :
    (first.merge second).merge third = first.merge (second.merge third) := by
  have hleft : (d.merge e).kind = f.kind := hde.trans hef
  have hright : d.kind = (e.merge f).kind := hde
  rw [merge_of_described hfirst hsecond hde, merge_of_described hsecond hthird hef,
    merge_of_described rfl hthird hleft, merge_of_described hfirst rfl hright,
    Descriptor.merge_assoc]

/-- **Merging is associative**, except around a failure of another kind. -/
theorem merge_assoc (h : ¬ Interrupted first second third) :
    (first.merge second).merge third = first.merge (second.merge third) := by
  cases hthird : third.expected with
  | unknown | endOfInput =>
      have hplain : ∀ d, third.expected ≠ .described d := by simp [hthird]
      rw [merge_of_not_described hplain, merge_of_not_described hplain,
        merge_of_not_described hplain]
  | described f =>
      have hkind : third.expected.kind = some (some f.kind) := by
        rw [hthird]
        rfl
      by_cases hsecond : second.expected.kind = third.expected.kind
      · obtain ⟨e, he, hef⟩ := Expected.exists_described_of_kind (hsecond.trans hkind)
        by_cases hfirst : first.expected.kind = third.expected.kind
        · obtain ⟨d, hd, hdf⟩ := Expected.exists_described_of_kind (hfirst.trans hkind)
          exact merge_assoc_of_described hd he hthird (hdf.trans hef.symm) hef
        · -- the first failure is dropped, now or later
          have hnow : first.expected.kind ≠ second.expected.kind := hsecond ▸ hfirst
          have hlater : first.expected.kind ≠ (second.merge third).expected.kind := by
            rwa [kind_merge]
          rw [merge_of_kind_ne hnow, merge_of_kind_ne hlater]
      · -- the third failure stands alone, as the first one is not of its kind either
        have hleft : (first.merge second).expected.kind ≠ third.expected.kind := by
          rwa [kind_merge]
        have hfirst : first.expected.kind ≠ third.expected.kind := fun heq =>
          h ⟨f.kind, heq.trans hkind, hkind, hkind ▸ hsecond⟩
        rw [merge_of_kind_ne hleft, merge_of_kind_ne hsecond, merge_of_kind_ne hfirst]

/-- Around a failure of another kind the first failure is dropped if it is merged with that
one, and kept if that one has been dropped before. -/
theorem merge_of_interrupted (h : Interrupted first second third) :
    (first.merge second).merge third = third
      ∧ first.merge (second.merge third) = first.merge third := by
  obtain ⟨kind, -, hthird, hsecond⟩ := h
  have hdropped : second.merge third = third := by
    apply merge_of_kind_ne
    rwa [hthird]
  have hleft : (first.merge second).merge third = third := by
    apply merge_of_kind_ne
    rwa [kind_merge, hthird]
  exact ⟨hleft, by rw [hdropped]⟩

end Failure

namespace Reply

/-- Goes on after a failure at `stream`, and passes any other reply on. -/
def retry (reply : Reply Op (Value Op)) (stream : Stream (Value Op))
    (next : Failure (Value Op) → Run Op (Reply Op (Value Op))) : Run Op (Reply Op (Value Op)) :=
  match reply with
  | success output remainder => return .success output remainder
  | failure f => if f.position = stream.position then next f else return .failure f

variable {reply : Reply Op (Value Op)} {stream : Stream (Value Op)}
  {next follow : Failure (Value Op) → Run Op (Reply Op (Value Op))}

theorem retry_of_start {f : Failure (Value Op)} (h : f.position = stream.position) :
    (failure f : Reply Op (Value Op)).retry stream next = next f := by
  rw [retry, if_pos h]

/-- Going on twice is going on after what the first time has led to. -/
theorem retry_bind_retry :
    (reply.retry stream next >>= fun reached => reached.retry stream follow)
      = reply.retry stream fun f => next f >>= fun reached => reached.retry stream follow := by
  cases reply with
  | success output remainder => rfl
  | failure f =>
      by_cases hstart : f.position = stream.position
      · rw [retry_of_start hstart, retry_of_start hstart]
      · simp only [retry, if_neg hstart, pure_bind]

/-- Only what follows a failure at the start matters. -/
theorem retry_congr
    (h : ∀ f, reply = .failure f → f.position = stream.position → next f = follow f) :
    reply.retry stream next = reply.retry stream follow := by
  cases reply with
  | success output remainder => rfl
  | failure f =>
      by_cases hstart : f.position = stream.position
      · rw [retry_of_start hstart, retry_of_start hstart, h f rfl hstart]
      · simp only [retry, if_neg hstart]

theorem SameButLabels.refl (reply : Reply Op (Value Op)) : reply.SameButLabels reply := by
  cases reply with
  | success output remainder => exact .success output remainder
  | failure f => exact .failure rfl rfl rfl

theorem agree_retry
    (h : ∀ f, reply = .failure f → f.position = stream.position →
      (next f).Agree SameButLabels (follow f)) :
    (reply.retry stream next).Agree SameButLabels (reply.retry stream follow) := by
  cases reply with
  | success output remainder => exact .pure (.refl _)
  | failure f =>
      by_cases hstart : f.position = stream.position
      · rw [retry_of_start hstart, retry_of_start hstart]
        exact h f rfl hstart
      · simp only [retry, if_neg hstart]
        exact .pure (.refl _)

end Reply

namespace Parser

open Reply

variable {p q r : Parser Op} {stream : Stream (Value Op)} {context : Context}

/-- A choice between unmarked parsers goes on after a failure at the start, and merges a
second one with it. -/
theorem run_orElse_of_unmarked (hp : p.backtracks = false) (hq : q.backtracks = false)
    (stream : Stream (Value Op)) (context : Context) :
    (p.orElse q).run stream context
      = p.run stream context >>= fun reply => reply.retry stream fun left =>
          q.run stream context >>= fun reply => reply.retry stream fun right =>
            return .failure (left.merge right) := by
  simp only [orElse, fallsThrough_of_unmarked hp, fallsThrough_of_unmarked hq, decide_eq_true_eq]
  rfl

/-- Runs three parsers in turn, as long as they fail at the start.  The failure of all three
is put together by `join`. -/
def firstOfThree (p q r : Parser Op) (stream : Stream (Value Op)) (context : Context)
    (join : Failure (Value Op) → Failure (Value Op) → Failure (Value Op) → Failure (Value Op)) :
    Run Op (Reply Op (Value Op)) := do
  (← p.run stream context).retry stream fun first => do
    (← q.run stream context).retry stream fun second => do
      (← r.run stream context).retry stream fun third =>
        return .failure (join first second third)

/-- Grouped to the left, the first two failures are merged before the third one is known. -/
theorem run_orElse_orElse_left (hp : p.backtracks = false) (hq : q.backtracks = false)
    (hr : r.backtracks = false) (stream : Stream (Value Op)) (context : Context) :
    ((p.orElse q).orElse r).run stream context
      = firstOfThree p q r stream context
          fun first second third => (first.merge second).merge third := by
  rw [run_orElse_of_unmarked rfl hr, run_orElse_of_unmarked hp hq, firstOfThree]
  simp only [bind_assoc, retry_bind_retry]
  refine Run.bind_congr_of_done fun _ _ => retry_congr fun first _ _ => ?_
  refine Run.bind_congr_of_done fun _ _ => retry_congr fun second _ hsecond => ?_
  -- the merged failure lies where the second one does, so the third parser is run
  have hmerged : (first.merge second).position = stream.position := by
    rwa [Failure.position, Failure.remainder_merge]
  rw [pure_bind, retry_of_start hmerged]

/-- Grouped to the right, the last two failures are merged before the first one counts. -/
theorem run_orElse_orElse_right (hp : p.backtracks = false) (hq : q.backtracks = false)
    (hr : r.backtracks = false) (stream : Stream (Value Op)) (context : Context) :
    (p.orElse (q.orElse r)).run stream context
      = firstOfThree p q r stream context
          fun first second third => first.merge (second.merge third) := by
  rw [run_orElse_of_unmarked hp rfl, run_orElse_of_unmarked hq hr, firstOfThree]
  simp only [bind_assoc, retry_bind_retry]
  refine Run.bind_congr_of_done fun _ _ => retry_congr fun first _ _ => ?_
  refine Run.bind_congr_of_done fun _ _ => retry_congr fun second _ _ => ?_
  refine Run.bind_congr_of_done fun _ _ => retry_congr fun third _ hthird => ?_
  have hmerged : (second.merge third).position = stream.position := by
    rwa [Failure.position, Failure.remainder_merge]
  rw [pure_bind, retry_of_start hmerged]

/-- Whether three parsers all fail at the start, the outer two with descriptors of one kind
and the one between them with something else. -/
def Interrupted (p q r : Parser Op) (stream : Stream (Value Op)) (context : Context) : Prop :=
  ∃ first second third, p.Fails stream context first ∧ q.Fails stream context second
    ∧ r.Fails stream context third ∧ first.position = stream.position
    ∧ second.position = stream.position ∧ third.position = stream.position
    ∧ first.Interrupted second third

section Join

variable {join other :
  Failure (Value Op) → Failure (Value Op) → Failure (Value Op) → Failure (Value Op)}

/-- Only the failures that the three parsers reply with at the start are put together. -/
theorem firstOfThree_congr
    (h : ∀ first second third, p.Fails stream context first → q.Fails stream context second →
      r.Fails stream context third → first.position = stream.position →
      second.position = stream.position → third.position = stream.position →
      join first second third = other first second third) :
    firstOfThree p q r stream context join = firstOfThree p q r stream context other := by
  refine Run.bind_congr_of_done fun _ hp => retry_congr fun first hfirst hatFirst => ?_
  refine Run.bind_congr_of_done fun _ hq => retry_congr fun second hsecond hatSecond => ?_
  refine Run.bind_congr_of_done fun _ hr => retry_congr fun third hthird hatThird => ?_
  subst hfirst hsecond hthird
  rw [h first second third hp hq hr hatFirst hatSecond hatThird]

/-- How the failures are put together shows in the labels only, if either way keeps the place
of a failure, what has been found there and the kind of what is expected. -/
theorem agree_firstOfThree
    (h : ∀ first second third,
      (failure (join first second third) : Reply Op (Value Op)).SameButLabels
        (failure (other first second third))) :
    (firstOfThree p q r stream context join).Agree SameButLabels
      (firstOfThree p q r stream context other) := by
  refine .after _ fun _ _ => agree_retry fun first _ _ => ?_
  refine .after _ fun _ _ => agree_retry fun second _ _ => ?_
  refine .after _ fun _ _ => agree_retry fun third _ _ => ?_
  exact .pure (h first second third)

end Join

/-- **Regrouping a choice.**  Let none of three parsers be marked.  Then the groupings end
alike: with the same success, or with failures in one place that have found the same there and
expect something of one kind, or with the same fault.  And they are the same run, down to
each item that a failure expects and to the log, unless all three parsers fail at the start,
the outer two with descriptors of one kind and the one between them with something else. -/
theorem regrouped_choice (hp : p.backtracks = false) (hq : q.backtracks = false)
    (hr : r.backtracks = false) (stream : Stream (Value Op)) (context : Context) :
    (((p.orElse q).orElse r).run stream context).Agree SameButLabels
        ((p.orElse (q.orElse r)).run stream context)
      ∧ (¬ Interrupted p q r stream context →
        ((p.orElse q).orElse r).run stream context
          = (p.orElse (q.orElse r)).run stream context) := by
  rw [run_orElse_orElse_left hp hq hr, run_orElse_orElse_right hp hq hr]
  constructor
  · apply agree_firstOfThree
    intro first second third
    exact .failure (by simp) (by simp) (by simp)
  · intro hplain
    apply firstOfThree_congr
    intro first second third hfirst hsecond hthird hatFirst hatSecond hatThird
    apply Failure.merge_assoc
    intro hinterrupted
    exact hplain ⟨first, second, third, hfirst, hsecond, hthird, hatFirst, hatSecond, hatThird,
      hinterrupted⟩

/-- Three tokens ask for the same in either grouping, with the one that two of them look
for listed once. -/
theorem regrouped_tokens :
    let a : Parser Stock := token (.char 'a')
    let b : Parser Stock := token (.char 'b')
    let stream : Stream (Value Stock) := ⟨.whole (.text ['c']), 0⟩
    ¬ Interrupted a b a stream {}
      ∧ ((a.orElse b).orElse a).run stream {} = (a.orElse (b.orElse a)).run stream {}
      ∧ (a.orElse (b.orElse a)).Fails stream {}
          { expected := .described ⟨.oneOf, [.char 'a', .char 'b']⟩, actual := .char 'c',
            remainder := stream } := by
  intro a b stream
  have hb : b.Fails stream {}
      { expected := .described ⟨.oneOf, [.char 'b']⟩, actual := .char 'c', remainder := stream } := rfl
  have hplain : ¬ Interrupted a b a stream {} := by
    rintro ⟨first, second, third, hfirst, hsecond, -, -, -, -, kind, hkind, -, hother⟩
    cases hfirst
    cases hb.symm.trans hsecond
    exact hother hkind
  exact ⟨hplain, (regrouped_choice rfl rfl rfl stream {}).2 hplain, rfl⟩

/-- Around a parser that looks for anything but a token, the first token is asked for in
one grouping only. -/
example :
    let a : Parser Stock := token (.char 'a')
    let b : Parser Stock := token (.char 'b')
    let other : Parser Stock := notToken (.char 'c')
    let stream : Stream (Value Stock) := ⟨.whole (.text ['c']), 0⟩
    ((a.orElse other).orElse b).Fails stream {}
        { expected := .described ⟨.oneOf, [.char 'b']⟩, actual := .char 'c', remainder := stream }
      ∧ (a.orElse (other.orElse b)).Fails stream {}
          { expected := .described ⟨.oneOf, [.char 'a', .char 'b']⟩, actual := .char 'c',
            remainder := stream } :=
  ⟨rfl, rfl⟩

end Parser

end Tokenwise
