import Tokenwise.Proofs.Failure.Law
import Tokenwise.Proofs.Parser.Labels

/-!
# A name is for the next token only

A name is to label the next token to be consumed.  So a failure further on, where this
token has been passed, should be the same whether there was a name or not, and not just
the same but for its labels.

A parser **names the next token only** if each of its failures past the start is found
in all contexts (`Parser.NamesNextOnly`).  Matchers have no such failures.  A sequence
takes the name away from its second parser.  A choice passes a failure on from past the start
when it stops there, and merges only failures at the start, if marks do not make it go
further.

A repetition keeps the name for all of its runs.  This shows where a later run fails at
its own start and the repetition is short of outputs, and then it may report the name a
token too late (`Definitions.second_run_reports_name`).  A repetition that asks for one
output at most fails in its first run or not at all (`Parser.fails_repeated_iff`), and so
the main statement, `Definitions.name_labels_next_token_only`, asks for no more than this.
-/

namespace Tokenwise

variable {Op : Type}

namespace Simulation.Respects

variable {p : Parser Op} {stream : Stream (Value Op)} {context : Context}

/-- A parser whose labels only depend on the context matches in all contexts or in none. -/
theorem matches_relabelled (hp : relabelled.Respects p) {output : Value Op}
    {remainder : Stream (Value Op)} (hmatches : p.Matches stream context output remainder)
    (other : Context) : p.Matches stream other output remainder := by
  have hagree : (p.run stream context).Agree (relabelled.Replies stream stream)
      (p.run stream other) := hp rfl trivial
  obtain ⟨second, hsecond, hreply⟩ := hagree.exists_done hmatches
  cases hreply with
  | @success _ _ last hreach =>
      obtain rfl : remainder = last := hreach
      exact hsecond

/-- A parser whose labels only depend on the context fails in all contexts or in none, and
at one place. -/
theorem fails_relabelled (hp : relabelled.Respects p) {failure : Failure (Value Op)}
    (hfails : p.Fails stream context failure) (other : Context) :
    ∃ second, p.Fails stream other second ∧ second.position = failure.position := by
  have hagree : (p.run stream context).Agree (relabelled.Replies stream stream)
      (p.run stream other) := hp rfl trivial
  obtain ⟨reply, hreply, hrelated⟩ := hagree.exists_done hfails
  cases hrelated with
  | @failure _ second h =>
      have hplace : failure.remainder = second.remainder := h.reach
      exact ⟨second, hreply, congrArg Stream.position hplace.symm⟩

end Simulation.Respects

namespace Parser

/-- Whether the context shows in the labels at most, and in none that a failure past the
start reports. -/
structure NamesNextOnly (p : Parser Op) : Prop where
  relabelled : Simulation.relabelled.Respects p
  past : ∀ {stream : Stream (Value Op)} {context other : Context} {failure : Failure (Value Op)},
    p.Fails stream context failure → failure.position ≠ stream.position →
      p.Fails stream other failure

namespace NamesNextOnly

open Simulation

variable {p q : Parser Op}

theorem of_fails_at_start (hrelabelled : Simulation.relabelled.Respects p)
    (hstart : ∀ {stream : Stream (Value Op)} {context : Context} {failure : Failure (Value Op)},
      p.Fails stream context failure → failure.position = stream.position) : p.NamesNextOnly where
  relabelled := hrelabelled
  past := fun hfails hpast => absurd (hstart hfails) hpast

theorem satisfying (test : Value Op → Bool) (kind : Descriptor.Kind) (labels : List (Value Op)) :
    (Parser.satisfying test kind labels).NamesNextOnly := by
  refine of_fails_at_start (respects_satisfying test kind labels) ?_
  intro stream context failure hfails
  obtain ⟨found, -, -, rfl⟩ := fails_satisfying_iff.mp hfails
  rfl

theorem pure (v : Value Op) : (Parser.pure v).NamesNextOnly := by
  refine of_fails_at_start (respects_pure v) ?_
  intro stream context failure hfails
  cases hfails

theorem fail (expected : Expected (Value Op)) (actual : Value Op) :
    (Parser.fail expected actual).NamesNextOnly := by
  refine of_fails_at_start (respects_fail expected actual) ?_
  intro stream context failure hfails
  cases hfails
  rfl

theorem map (hp : p.NamesNextOnly) (f : Value Op → Run Op (Value Op)) : (p.map f).NamesNextOnly where
  relabelled := Respects.map hp.relabelled f
  past := by
    intro stream context other failure hfails hpast
    rw [fails_map_iff] at hfails ⊢
    exact hp.past hfails hpast

/-- The second parser runs without a name in any case. -/
theorem sequence (hp : p.NamesNextOnly) (hq : q.NamesNextOnly)
    (join : Value Op → Value Op → Run Op (Value Op)) : (p.sequence q join).NamesNextOnly where
  relabelled := Respects.sequence hp.relabelled hq.relabelled join
  past := by
    intro stream context other failure hfails hpast
    rw [fails_sequence_iff] at hfails ⊢
    obtain hfirst | ⟨left, middle, hleft, hsecond⟩ := hfails
    · exact .inl (hp.past hfirst hpast)
    · exact .inr ⟨left, middle, Respects.matches_relabelled hp.relabelled hleft other, hsecond⟩

theorem orElse (hp : p.NamesNextOnly) (hq : q.NamesNextOnly) (hpstart : p.FallsThroughAtStart)
    (hqstart : q.FallsThroughAtStart) : (p.orElse q).NamesNextOnly where
  relabelled := Respects.orElse hp.relabelled hq.relabelled
  past := by
    intro stream context other failure hfails hpast
    rw [fails_orElse_iff] at hfails ⊢
    obtain ⟨left, hleft, ⟨hstop, rfl⟩ | ⟨hfall, right, hright, rfl⟩⟩ := hfails
    · exact ⟨failure, hp.past hleft hpast, .inl ⟨hstop, rfl⟩⟩
    · -- a merged failure would lie at the start, so the second parser has failed alone
      have halone : ¬ q.fallsThrough right stream := by
        intro hmerge
        rw [if_pos hmerge] at hpast
        have hposition : (left.merge right).position = right.position :=
          congrArg Stream.position (Failure.remainder_merge left right)
        exact hpast (hposition.trans (hqstart hright hmerge))
      rw [if_neg halone] at hpast ⊢
      obtain ⟨second, hsecond, hplace⟩ := Respects.fails_relabelled hp.relabelled hleft other
      have hstart : second.position = stream.position := hplace.trans (hpstart hleft hfall)
      refine ⟨second, hsecond, .inr ⟨fallsThrough_of_start p hstart, right,
        hq.past hright hpast, ?_⟩⟩
      rw [if_neg halone]

/-- Only the first run can fail for good, and this one may have the name. -/
theorem repeated (hp : p.NamesNextOnly) {bounds : Bounds} (hbounds : bounds.atLeast ≤ 1)
    (limit : Nat) : (p.repeated bounds limit).NamesNextOnly where
  relabelled := Respects.repeated hp.relabelled bounds limit
  past := by
    intro stream context other failure hfails hpast
    rw [fails_repeated_iff hbounds] at hfails ⊢
    obtain ⟨hone, hallowed, hfirst⟩ := hfails
    exact ⟨hone, hallowed, hp.past hfirst hpast⟩

theorem ahead (hp : p.NamesNextOnly) : p.ahead.NamesNextOnly where
  relabelled := Respects.ahead hp.relabelled
  past := by
    intro stream context other failure hfails hpast
    rw [fails_ahead_iff] at hfails ⊢
    exact hp.past hfails hpast

theorem notAhead (hp : p.NamesNextOnly) : p.notAhead.NamesNextOnly := by
  refine of_fails_at_start (Respects.notAhead hp.relabelled) ?_
  intro stream context failure hfails
  obtain ⟨output, remainder, -, rfl⟩ := exists_matches_of_fails_notAhead hfails
  rfl

theorem named (hp : p.NamesNextOnly) (name : String) : (p.named name).NamesNextOnly where
  relabelled := fun hbegin _ => hp.relabelled hbegin trivial
  past := fun hfails hpast => hp.past hfails hpast

theorem namedIfAbsent (hp : p.NamesNextOnly) (name : String) :
    (p.namedIfAbsent name).NamesNextOnly where
  relabelled := fun hbegin _ => hp.relabelled hbegin trivial
  past := fun hfails hpast => hp.past hfails hpast

theorem deferred {find : Unit → Run Op (Parser Op)}
    (hfind : ∀ p, (find ()).ending = .done p → p.NamesNextOnly) :
    (Parser.deferred find).NamesNextOnly where
  relabelled := respects_deferred fun p hp => (hfind p hp).relabelled
  past := by
    intro stream context other failure hfails hpast
    obtain ⟨p, hp, hreply⟩ := deferred_ending_eq_done_iff.mp hfails
    exact deferred_ending_eq_done_iff.mpr ⟨p, hp, (hfind p hp).past hreply hpast⟩

end NamesNextOnly

end Parser

variable [Operations Op]

/-- Whether a part does not carry a name past the token that it is for.  A literal would
show it at any of its characters. -/
def Grammar.NamesNextOnly : Grammar Op → Prop
  | orElse g h => g.FallsThroughAtStart ∧ h.FallsThroughAtStart
  | repeated _ bounds => bounds.atLeast ≤ 1
  | literal _ | alternatives _ | custom _ => False
  | _ => True

theorem Grammar.parser_namesNextOnly {scope : String → Run Op (Parser Op)} {limit : Nat}
    (hscope : ∀ name p, (scope name).ending = .done p → p.NamesNextOnly) {g : Grammar Op}
    (hg : g.Every NamesNextOnly) : (g.parser scope limit).NamesNextOnly := by
  induction hg with
  | @intro g here below ih =>
      cases g with
      | token expected => exact .satisfying _ _ _
      | notToken unexpected => exact .satisfying _ _ _
      | oneOf choices => exact .satisfying _ _ _
      | noneOf excluded => exact .satisfying _ _ _
      | literal s => exact here.elim
      | pure v => exact .pure v
      | fail expected actual => exact .fail expected actual
      | map g f => exact (ih g (by simp [children])).map f
      | orElse g h =>
          exact (ih g (by simp [children])).orElse (ih h (by simp [children]))
            (here.1 scope limit) (here.2 scope limit)
      | alternatives gs => exact here.elim
      | backtracking g =>
          have hpart : (g.parser scope limit).NamesNextOnly := ih g (by simp [children])
          exact ⟨hpart.relabelled, hpart.past⟩
      | keepLeft g h => exact (ih g (by simp [children])).sequence (ih h (by simp [children])) _
      | keepRight g h => exact (ih g (by simp [children])).sequence (ih h (by simp [children])) _
      | apply g h => exact (ih g (by simp [children])).sequence (ih h (by simp [children])) _
      | repeated g bounds => exact (ih g (by simp [children])).repeated here limit
      | ahead g => exact (ih g (by simp [children])).ahead
      | notAhead g => exact (ih g (by simp [children])).notAhead
      | named g name => exact (ih g (by simp [children])).named name
      | namedIfAbsent g name => exact (ih g (by simp [children])).namedIfAbsent name
      | deferred name => exact .deferred (hscope name)
      | deferredValue v =>
          change Parser.NamesNextOnly (Parser.deferred fun _ => Run.raise (.notAParser v.typeName))
          refine .deferred ?_
          intro p hp
          cases hp
      | custom p => exact here.elim

/-- **A name labels the next token only**, if no repetition asks for more than one output.
Among any definitions, take a grammar without literals, in which choices go on only where a
parser has failed at the start.  A failure of it under a name that lies past the start is
the failure of the grammar without a name: the same is expected and found, with the
same input left. -/
theorem Definitions.name_labels_next_token_only {definitions : Definitions Op} {g : Grammar Op}
    (hdefs : definitions.Every Grammar.NamesNextOnly) (hg : g.Every Grammar.NamesNextOnly)
    (fuel : Nat) {stream : Stream (Value Op)} {context : Context} {name : String}
    {failure : Failure (Value Op)}
    (hrun : ((definitions.parser fuel (.named g name)).run stream context).ending
      = .done (.failure failure))
    (hpast : stream.position < failure.position) :
    ((definitions.parser fuel g).run stream {}).ending = .done (.failure failure) := by
  have hparser : (definitions.parser fuel g).NamesNextOnly :=
    Grammar.parser_namesNextOnly
      (definitions.resolve_induction Grammar.parser_namesNextOnly hdefs fuel) hg
  have hfails : (definitions.parser fuel g).Fails stream (context.withName name) failure := hrun
  exact hparser.past hfails (Int.ne_of_gt hpast)

/-- After a named repetition, which has taken two tokens, both tokens that would go on are
listed. -/
theorem Definitions.token_after_named_repetition_not_labelled :
    let g : Grammar Stock := .keepRight (.repeated (.token (.char 'a')) ⟨1, none, nofun⟩)
      (.orElse (.token (.char 'b')) (.backtracking (.token (.char 'c'))))
    let stream : Stream (Value Stock) := ⟨.whole (.text ['-', 'a', 'a', '-']), 1⟩
    let failure : Failure (Value Stock) :=
      { expected := .described ⟨.oneOf, [.char 'b', .char 'c']⟩, actual := .char '-'
        remainder := ⟨stream.source, 3⟩ }
    (((Definitions.mk []).parser 3 (.named g "word")).run stream {}).ending
        = .done (.failure failure)
      ∧ stream.position < failure.position
      ∧ (((Definitions.mk []).parser 3 g).run stream {}).ending = .done (.failure failure) := by
  intro g stream failure
  have hdefs : (Definitions.mk [] : Definitions Stock).Every Grammar.NamesNextOnly := nofun
  have hrepeated : (Grammar.repeated (.token (.char 'a')) ⟨1, none, nofun⟩ : Grammar Stock).Every
      Grammar.NamesNextOnly :=
    .only (Nat.le_refl 1) rfl (.leaf trivial rfl)
  have hmarks : (Grammar.token (.char 'b') : Grammar Stock).FallsThroughAtStart
      ∧ (Grammar.backtracking (.token (.char 'c')) : Grammar Stock).FallsThroughAtStart :=
    ⟨Grammar.fallsThroughAtStart_of_unmarked rfl,
      fun _ _ => Parser.fallsThroughAtStart_backtracking_satisfying _ _ _⟩
  have hg : g.Every Grammar.NamesNextOnly := by
    refine .pair trivial rfl hrepeated ?_
    exact .pair hmarks rfl (.leaf trivial rfl) (.only trivial rfl (.leaf trivial rfl))
  have hrun : (((Definitions.mk []).parser 3 (.named g "word")).run stream {}).ending
      = .done (.failure failure) := rfl
  have hpast : stream.position < failure.position := by decide
  exact ⟨hrun, hpast, name_labels_next_token_only hdefs hg 3 hrun hpast⟩

/-- With two outputs asked for, the second run of a named repetition reports the name, for a
token that is not the next one any more. -/
theorem Definitions.second_run_reports_name :
    let twice : Bounds := ⟨2, some 2, fun _ h => Nat.le_of_eq (Option.some.inj h)⟩
    let g : Grammar Stock := .repeated (.token (.char 'a')) twice
    let stream : Stream (Value Stock) := ⟨.whole (.text ['a', 'b']), 0⟩
    let failure : Failure (Value Stock) :=
      { expected := .described ⟨.oneOf, [.text "pair"]⟩, actual := .char 'b'
        remainder := ⟨stream.source, 1⟩ }
    (((Definitions.mk []).parser 1 (.named g "pair")).run stream {}).ending
        = .done (.failure failure)
      ∧ stream.position < failure.position
      ∧ (((Definitions.mk []).parser 1 g).run stream {}).ending ≠ .done (.failure failure) := by
  intro twice g stream failure
  have hplain : (((Definitions.mk []).parser 1 g).run stream {}).ending = .done (.failure
      { failure with expected := .described ⟨.oneOf, [.char 'a']⟩ }) := rfl
  refine ⟨rfl, by decide, ?_⟩
  rw [hplain]
  simp [failure, Value.char]

end Tokenwise
