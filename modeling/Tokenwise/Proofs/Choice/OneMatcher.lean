import Tokenwise.Proofs.Choice.Regroup

/-!
# A choice between one-token matchers

Matchers that all look at the next token can be tried one after another, or be one matcher that
accepts what any of them does.  Nothing tells the two apart.  Either way the token is taken from
the input, so it does not matter which of the matchers has accepted it, and they all fail at the
start, where a choice goes on.  What is left to compare is what they list as expected.  Listing
the labels of one matcher after those of another and leaving out what is there already, time and
again, comes to the same as listing them all and doing so once (`Parser.merge_mismatch`), and a
name that stands for each of the lists stands for all of them
(`distinct_labelsOr_append`).

`Parser.orElse_satisfying` is the law for two matchers of one kind, and
`Parser.choice_between_oneOf` that for any number of them, in a chain of choices or a loop.
-/

namespace Tokenwise

variable {Op : Type}

theorem distinct_text_text (s : String) :
    distinct [(.text s : Value Op), .text s] = distinct [.text s] := by
  have hhides : (Value.text s : Value Op).hides (.text s) = true := by simp [Value.hides]
  simp [distinct_eq_visibleAfter, visibleAfter, hhides]

/-- The labels of two lists are those of both together, if the context has a name as well. -/
theorem distinct_labelsOr_append (context : Context) (labels more : List (Value Op)) :
    distinct (context.labelsOr .text labels ++ context.labelsOr .text more)
      = distinct (context.labelsOr .text (labels ++ more)) := by
  rcases context with ⟨_ | name⟩
  · rfl
  · exact distinct_text_text name

theorem filter_or {α : Type} (found : Option α) (test other : α → Bool) :
    found.filter (fun v => test v || other v) = (found.filter test).or (found.filter other) := by
  cases found with
  | none => rfl
  | some v => cases htest : test v <;> simp [Option.filter_some, htest]

namespace Parser

section Satisfying

variable {test : Value Op → Bool} {kind : Descriptor.Kind} {labels : List (Value Op)}
  {stream : Stream (Value Op)}

theorem run_satisfying_of_peek {found : Option (Value Op)} (hpeek : stream.peek = .ok found)
    (context : Context) :
    (satisfying test kind labels).run stream context
      = match found.filter test with
        | some token => do return .success token (← stream.advance)
        | none => return .failure (mismatch kind labels context found stream) := by
  simp only [satisfying, hpeek]
  rfl

theorem run_satisfying_of_error {fault : Fault} (hpeek : stream.peek = .error fault)
    (context : Context) :
    (satisfying test kind labels).run stream context = Run.raise fault := by
  simp only [satisfying, hpeek]
  rfl

end Satisfying

/-- Two matchers of one kind that have found the same fail together as one that lists the labels
of both. -/
theorem merge_mismatch (kind : Descriptor.Kind) (labels more : List (Value Op)) (context : Context)
    (found : Option (Value Op)) (stream : Stream (Value Op)) :
    (mismatch kind labels context found stream).merge (mismatch kind more context found stream)
      = mismatch kind (labels ++ more) context found stream := by
  have hmerge : (Descriptor.ofItems kind (context.labelsOr Value.text labels)).merge
      (.ofItems kind (context.labelsOr .text more))
        = .ofItems kind (context.labelsOr .text (labels ++ more)) := by
    simp only [Descriptor.merge, Descriptor.ofItems, distinct_distinct_append,
      distinct_append_distinct, distinct_labelsOr_append]
  have hkind : (Descriptor.ofItems kind (context.labelsOr Value.text labels)).kind
      = (Descriptor.ofItems kind (context.labelsOr Value.text more)).kind := rfl
  rw [Failure.merge_of_described rfl rfl hkind, hmerge]
  rfl

/-- **Two matchers are one.**  A choice between matchers of one kind is the matcher that accepts
what either of them does and lists the labels of both. -/
theorem orElse_satisfying (test other : Value Op → Bool) (kind : Descriptor.Kind)
    (labels more : List (Value Op)) :
    (satisfying test kind labels).orElse (satisfying other kind more)
      = satisfying (fun v => test v || other v) kind (labels ++ more) := by
  have hrun : ((satisfying test kind labels).orElse (satisfying other kind more)).run
      = (satisfying (fun v => test v || other v) kind (labels ++ more)).run := by
    funext stream context
    rw [run_orElse_of_unmarked rfl rfl]
    cases hpeek : stream.peek with
    | error fault => simp only [run_satisfying_of_error hpeek, Run.raise_bind]
    | ok found =>
        have hstart (labels : List (Value Op)) :
            (mismatch kind labels context found stream).position = stream.position := rfl
        simp only [run_satisfying_of_peek hpeek, filter_or]
        cases htest : found.filter test with
        | some v => simp only [Option.some_or, bind_assoc, pure_bind, Reply.retry]
        | none =>
            simp only [Option.none_or, pure_bind, Reply.retry_of_start (hstart labels)]
            cases hother : found.filter other with
            | some v => simp only [bind_assoc, pure_bind, Reply.retry]
            | none => simp only [pure_bind, Reply.retry_of_start (hstart more), merge_mismatch]
  calc (satisfying test kind labels).orElse (satisfying other kind more)
      = ⟨((satisfying test kind labels).orElse (satisfying other kind more)).run, false⟩ := rfl
    _ = satisfying (fun v => test v || other v) kind (labels ++ more) := by rw [hrun]; rfl

theorem orElse_oneOf (choices more : List (Value Op)) :
    (oneOf choices).orElse (oneOf more) = oneOf (choices ++ more) := by
  rw [oneOf, oneOf, orElse_satisfying, oneOf]
  congr 1
  funext v
  rw [List.contains_append]

/-- A chain of choices between matchers lists the choices of all of them. -/
theorem foldl_orElse_oneOf (choices : List (Value Op)) (more : List (List (Value Op))) :
    (more.map oneOf).foldl orElse (oneOf choices) = oneOf (choices ++ more.flatten) := by
  induction more generalizing choices with
  | nil => rw [List.map_nil, List.foldl_nil, List.flatten_nil, List.append_nil]
  | cons next more ih =>
      rw [List.map_cons, List.foldl_cons, orElse_oneOf, ih, List.flatten_cons, List.append_assoc]

/-- **A choice between one-token matchers is one matcher.**  Whether the lists of tokens are tried
in a loop or in a chain of choices, this is the matcher for the tokens of all of them, one list
after another: the same parser, which takes the same token, fails with the same items in the same
order, and leaves the same log, on every stream and in every context. -/
theorem choice_between_oneOf (choices : List (Value Op)) (more : List (List (Value Op))) :
    alternatives ((choices :: more).map oneOf) = oneOf (choices :: more).flatten
      ∧ (more.map oneOf).foldl orElse (oneOf choices) = oneOf (choices :: more).flatten := by
  have hchain : (more.map oneOf).foldl orElse (oneOf choices) = oneOf (choices :: more).flatten :=
    foldl_orElse_oneOf choices more
  refine ⟨?_, hchain⟩
  -- the first matcher has no mark that the loop could take off
  have hloop : (alternatives (oneOf choices :: more.map oneOf)).run
      = ((more.map oneOf).foldl orElse (oneOf choices)).run := by
    funext stream context
    exact run_alternatives_cons (oneOf choices) (more.map oneOf) stream context
  calc alternatives ((choices :: more).map oneOf)
      = ⟨(alternatives (oneOf choices :: more.map oneOf)).run, false⟩ := rfl
    _ = oneOf (choices :: more).flatten := by rw [hloop, hchain]; rfl

end Parser

end Tokenwise
