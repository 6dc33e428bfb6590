import Tokenwise.Callable.Stock
import Tokenwise.Proofs.Parser.Outcome

/-!
# A choice among many parsers is a chain of choices between two

`Parser.alternatives` goes through its parsers in a loop, with the failure so
far as its state.  The chain `((fail | p) | q) | …` has no state: each choice
runs all that is to its left again, as its first operand, and such a choice is
never marked as backtracking, whatever its operands are.

The two meet in `firstOf`.  A chain that starts with an unmarked parser runs
this parser, passes a success on, and hands a failure to the loop over the rest
(`run_foldl_orElse`).  What makes it so is that a failure past the start ends
both: the loop looks at the position before each parser (`firstOf_of_moved`),
and the chain has lost the marks that could have carried it on.

A chain `p | q | …` without `fail` in front differs in one thing.  There the mark of
`p` counts, while the loop is the chain that starts with `p` without its mark
(`run_alternatives_cons`).  So the two are the same run unless `p` is marked and has
failed past the start (`run_alternatives_eq_foldl_orElse_of_first`), and then they
may part (`marked_first_alternative_is_final`).
-/

namespace Tokenwise.Parser

variable {Op : Type}

/-- What the loop makes of the reply of the parsers before `ps`. -/
def continueWith (stream : Stream (Value Op)) (context : Context) (ps : List (Parser Op)) :
    Reply Op (Value Op) → Run Op (Reply Op (Value Op))
  | .success output remainder => return .success output remainder
  | .failure failure => firstOf stream context failure ps

/-- With nothing left to try, every reply is final. -/
@[simp] theorem continueWith_nil (stream : Stream (Value Op)) (context : Context) :
    continueWith stream context [] = Pure.pure := by
  funext reply
  cases reply <;> rfl

/-- A failure past the start is final, whatever is left to try. -/
theorem firstOf_of_moved {stream : Stream (Value Op)} {failure : Failure (Value Op)}
    (hmoved : failure.position ≠ stream.position) (context : Context) (ps : List (Parser Op)) :
    firstOf stream context failure ps = return .failure failure := by
  cases ps with
  | nil => rfl
  | cons p ps => rw [firstOf, if_neg hmoved]

/-- A parser without a mark lets a choice go on after it just when it has failed
at the start. -/
theorem fallsThrough_of_unmarked {p : Parser Op} (hp : p.backtracks = false)
    (failure : Failure (Value Op)) (stream : Stream (Value Op)) :
    p.fallsThrough failure stream = decide (failure.position = stream.position) := by
  simp only [fallsThrough, hp, Bool.false_or]
  rfl

theorem fallsThrough_iff_of_unmarked {p : Parser Op} (hp : p.backtracks = false)
    {failure : Failure (Value Op)} {stream : Stream (Value Op)} :
    p.fallsThrough failure stream = true ↔ failure.position = stream.position := by
  rw [fallsThrough_of_unmarked hp, decide_eq_true_eq]

/-- After a failure at the start a choice goes on, whether the parser is marked or not. -/
theorem fallsThrough_of_start (p : Parser Op) {failure : Failure (Value Op)}
    {stream : Stream (Value Op)} (h : failure.position = stream.position) :
    p.fallsThrough failure stream = true := by
  simp [fallsThrough, h]

/-- Whether a choice goes on after the parser only where it has failed at the start. -/
def FallsThroughAtStart (p : Parser Op) : Prop :=
  ∀ {stream : Stream (Value Op)} {context : Context} {failure : Failure (Value Op)},
    p.Fails stream context failure → p.fallsThrough failure stream →
      failure.position = stream.position

theorem fallsThroughAtStart_of_unmarked {p : Parser Op} (hp : p.backtracks = false) :
    p.FallsThroughAtStart :=
  fun _ hfall => (fallsThrough_iff_of_unmarked hp).mp hfall

/-- A mark on a one-token matcher, which only fails at the start, has no effect. -/
theorem fallsThroughAtStart_backtracking_satisfying (test : Value Op → Bool)
    (kind : Descriptor.Kind) (labels : List (Value Op)) :
    (satisfying test kind labels).backtracking.FallsThroughAtStart := by
  intro stream context failure hfails _
  obtain ⟨found, -, -, rfl⟩ := fails_satisfying_iff.mp hfails
  rfl

/-- **One link of the chain.**  To choose between an unmarked parser and `p` and
then go on with `ps` is to go on with `p :: ps` after the unmarked parser. -/
theorem run_orElse_continueWith {q : Parser Op} (hq : q.backtracks = false) (p : Parser Op)
    (ps : List (Parser Op)) (stream : Stream (Value Op)) (context : Context) :
    (q.orElse p).run stream context >>= continueWith stream context ps
      = q.run stream context >>= continueWith stream context (p :: ps) := by
  simp only [orElse, bind_assoc]
  congr 1
  funext reply
  cases reply with
  | success output remainder => rfl
  | failure left =>
      simp only [continueWith, fallsThrough_of_unmarked hq, decide_eq_true_eq]
      by_cases hstart : left.position = stream.position
      · simp only [if_pos hstart, firstOf, bind_assoc]
        congr 1
        funext other
        cases other with
        | success output remainder => rfl
        | failure right =>
            by_cases hfall : p.fallsThrough right stream
            · simp only [if_pos hfall, pure_bind, continueWith]
            · -- `p` holds the choice back, so `right` lies past the start
              have hmoved : right.position ≠ stream.position :=
                fun heq => hfall (fallsThrough_of_start p heq)
              simp only [if_neg hfall, pure_bind, continueWith, firstOf_of_moved hmoved]
      · simp only [if_neg hstart, pure_bind, continueWith, firstOf_of_moved hstart]

/-- **The chain is the loop.**  A chain of choices that starts with an unmarked
parser runs it once, and the loop over the others after it. -/
theorem run_foldl_orElse {q : Parser Op} (hq : q.backtracks = false) (ps : List (Parser Op))
    (stream : Stream (Value Op)) (context : Context) :
    (ps.foldl orElse q).run stream context
      = q.run stream context >>= continueWith stream context ps := by
  induction ps generalizing q with
  | nil => rw [List.foldl_nil, continueWith_nil, bind_pure]
  | cons p ps ih =>
      calc ((p :: ps).foldl orElse q).run stream context
          = (q.orElse p).run stream context >>= continueWith stream context ps := ih rfl
        _ = q.run stream context >>= continueWith stream context (p :: ps) :=
            run_orElse_continueWith hq p ps stream context

/-- A chain of choices that starts with an unmarked parser is unmarked. -/
theorem backtracks_foldl_orElse {q : Parser Op} (hq : q.backtracks = false)
    (ps : List (Parser Op)) : (ps.foldl orElse q).backtracks = false := by
  induction ps generalizing q with
  | nil => exact hq
  | cons p ps ih => exact ih rfl

/-- **Alternatives are the fold of choice from failure.**  For any parsers, marked
or not, a choice among all of them is the same parser as the chain of choices
between two that starts with `fail`.  It replies the same, raises the same faults and leaves the
same events, so it runs the same parsers in the same order. -/
theorem alternatives_eq_foldl_orElse (ps : List (Parser Op)) :
    alternatives ps = ps.foldl orElse fail := by
  have hmark : (ps.foldl orElse fail).backtracks = false := backtracks_foldl_orElse rfl ps
  have hrun : (ps.foldl orElse fail).run = (alternatives ps).run := by
    funext stream context
    -- the chain starts with the failure that the loop starts with
    exact run_foldl_orElse rfl ps stream context
  calc alternatives ps
      = ⟨(ps.foldl orElse fail).run, (ps.foldl orElse fail).backtracks⟩ := by
        rw [hrun, hmark]; rfl
    _ = ps.foldl orElse fail := rfl

/-- The parser as one that a choice goes on after only if it has failed at the start. -/
def withoutMark (p : Parser Op) : Parser Op := ⟨p.run, false⟩

/-- Alternatives are the chain of choices that starts with the first of them without
its mark. -/
theorem run_alternatives_cons (p : Parser Op) (ps : List (Parser Op))
    (stream : Stream (Value Op)) (context : Context) :
    (alternatives (p :: ps)).run stream context
      = (ps.foldl orElse p.withoutMark).run stream context := by
  have hloop : (alternatives (p :: ps)).run stream context
      = p.run stream context >>= continueWith stream context ps := by
    have hstart : (Failure.mk Expected.unknown Value.failMarker stream none).position
        = stream.position := rfl
    simp only [alternatives, firstOf, if_pos hstart]
    congr 1
    funext reply
    cases reply with
    | success output remainder => rfl
    | failure next =>
        simp only [continueWith, Failure.merge_of_unknown]
        by_cases hfall : p.fallsThrough next stream
        · rw [if_pos hfall]
        · -- the loop ends here, and would have ended at the next parser
          have hmoved : next.position ≠ stream.position :=
            fun heq => hfall (fallsThrough_of_start p heq)
          rw [if_neg hfall, firstOf_of_moved hmoved]
  rw [hloop, run_foldl_orElse rfl]
  rfl

/-- With one more parser at their end, alternatives are the choice between all others and
this one. -/
theorem run_alternatives_concat (ps : List (Parser Op)) (p : Parser Op)
    (stream : Stream (Value Op)) (context : Context) :
    (alternatives (ps ++ [p])).run stream context = ((alternatives ps).orElse p).run stream context := by
  have hloop (ps : List (Parser Op)) :
      (ps.foldl orElse fail).run stream context = (alternatives ps).run stream context :=
    run_foldl_orElse rfl ps stream context
  have hmark : (ps.foldl orElse fail).backtracks = false := backtracks_foldl_orElse rfl ps
  have hunmarked : (alternatives ps).backtracks = false := rfl
  calc (alternatives (ps ++ [p])).run stream context
      = ((ps ++ [p]).foldl orElse fail).run stream context := (hloop _).symm
    _ = ([p].foldl orElse (ps.foldl orElse fail)).run stream context := by rw [List.foldl_append]
    _ = (ps.foldl orElse fail).run stream context >>= continueWith stream context [p] :=
        run_foldl_orElse hmark [p] stream context
    _ = (alternatives ps).run stream context >>= continueWith stream context [p] := by rw [hloop]
    _ = ((alternatives ps).orElse p).run stream context :=
        (run_foldl_orElse hunmarked [p] stream context).symm

/-- The mark of the first parser matters to a choice only after a failure past the
start. -/
theorem run_orElse_withoutMark {p : Parser Op} {stream : Stream (Value Op)} {context : Context}
    (hfirst : p.backtracks = true → ∀ failure, p.Fails stream context failure →
      failure.position = stream.position) (q : Parser Op) :
    (p.withoutMark.orElse q).run stream context = (p.orElse q).run stream context := by
  simp only [orElse]
  refine Run.bind_congr_of_done fun reply hreply => ?_
  cases reply with
  | success output remainder => rfl
  | failure left =>
      have hfall : p.withoutMark.fallsThrough left stream = p.fallsThrough left stream := by
        rw [fallsThrough_of_unmarked rfl]
        cases hmark : p.backtracks with
        | false => rw [fallsThrough_of_unmarked hmark]
        | true =>
            have hstart : left.position = stream.position := hfirst hmark left hreply
            rw [fallsThrough_of_start p hstart, decide_eq_true hstart]
      simp only [hfall]

/-- **Alternatives are the chain that starts with the first of them**, as long as this
one is not both marked and failing past the start.  Then the loop and `p | q | …` make
the same run: they reply the same, raise the same faults and leave the same events. -/
theorem run_alternatives_eq_foldl_orElse_of_first {p : Parser Op} (ps : List (Parser Op))
    {stream : Stream (Value Op)} {context : Context}
    (hfirst : p.backtracks = true → ∀ failure, p.Fails stream context failure →
      failure.position = stream.position) :
    (alternatives (p :: ps)).run stream context = (ps.foldl orElse p).run stream context := by
  rw [run_alternatives_cons]
  cases ps with
  | nil => rfl
  | cons q ps =>
      rw [List.foldl_cons, List.foldl_cons, run_foldl_orElse rfl, run_foldl_orElse rfl,
        run_orElse_withoutMark hfirst]

/-- A marked first alternative that fails at the start keeps to the chain. -/
theorem run_alternatives_of_first_at_start :
    let p : Parser Stock := backtracking (literal "ab")
    let stream : Stream (Value Stock) := ⟨.whole (.text ['c', 'b']), 0⟩
    (∀ failure, p.Fails stream {} failure → failure.position = stream.position)
      ∧ (alternatives [p, literal "ac", literal "cb"]).run stream {}
        = ([literal "ac", literal "cb"].foldl orElse p).run stream {} := by
  intro p stream
  have hfirst : ∀ failure, p.Fails stream {} failure → failure.position = stream.position := by
    intro failure hfails
    have hrun : p.Fails stream {}
        { expected := .described ⟨.oneOf, [.text "ab"]⟩, actual := .char 'c', remainder := stream } :=
      rfl
    cases hrun.symm.trans hfails
    rfl
  exact ⟨hfirst, run_alternatives_eq_foldl_orElse_of_first _ fun _ => hfirst⟩

/-- A marked first alternative that fails past the start ends the loop, where the chain
goes on and matches. -/
theorem marked_first_alternative_is_final :
    let p : Parser Stock := backtracking (literal "ab")
    let q : Parser Stock := literal "ac"
    let stream : Stream (Value Stock) := ⟨.whole (.text ['a', 'c']), 0⟩
    (alternatives [p, q]).Fails stream {}
        { expected := .described ⟨.oneOf, [.text "ab"]⟩, actual := .char 'c'
          remainder := ⟨stream.source, 1⟩ }
      ∧ ([q].foldl orElse p).Matches stream {} (.text "ac") ⟨stream.source, 2⟩ :=
  ⟨rfl, rfl⟩

end Tokenwise.Parser
