import Tokenwise.Proofs.Choice.Chain
import Tokenwise.Proofs.Parser.Simulation
import Tokenwise.Proofs.Stream.Tokens

/-!
# Past the end is at the end

A stream may start past the end of its source.  It has no tokens left then, just like a
stream that starts at the end, and peeking tells no difference.

Without a token to take, a parser has nothing to move for.  A matcher fails where it is
applied, and what is made of matchers stays there too: all failures in a choice lie at the
start, and a repetition is over after its first run.  A parser **stays at the end** if, on
any two streams without tokens, it gives one answer and leaves both where they are
(`Parser.StaysAtEnd`).  The combinators keep to this, so from the end on the position of a
stream makes no difference (`Definitions.past_end_as_at_end`).

A literal does not stay.  It advances to each of its characters, the first one among them,
and advancing goes no further than to the end: from past the end, it goes back.  A choice
then takes the failure of a literal for one that has come from further on, and a repetition
takes an empty literal for progress (`Definitions.literal_goes_back_to_end`).
-/

namespace Tokenwise

variable {Op : Type} {s t : Stream (Value Op)}

/-- Whether two failures say the same and leave the streams `s` and `t` as they are. -/
structure Failure.InPlace (s t : Stream (Value Op)) (failure other : Failure (Value Op)) : Prop where
  expected : failure.expected = other.expected
  actual : failure.actual = other.actual
  left : failure.remainder = s
  right : other.remainder = t

/-- Whether two replies, to `s` and to `t`, give one answer and leave the streams as they
are. -/
inductive Reply.InPlace {α : Type} (s t : Stream (Value Op)) : Reply Op α → Reply Op α → Prop
  | success (output : α) : InPlace s t (.success output s) (.success output t)
  | failure {failure other : Failure (Value Op)} (h : failure.InPlace s t other) :
      InPlace s t (.failure failure) (.failure other)

namespace Failure.InPlace

variable {failure other left right otherLeft otherRight : Failure (Value Op)}

theorem merge (hleft : left.InPlace s t otherLeft) (hright : right.InPlace s t otherRight) :
    (left.merge right).InPlace s t (otherLeft.merge otherRight) where
  expected := expected_merge_congr hleft.expected hright.expected
  actual := by rw [actual_merge, actual_merge, hright.actual]
  left := by rw [remainder_merge, hright.left]
  right := by rw [remainder_merge, hright.right]

/-- A choice goes on after failures in place, whether their parser is marked or not. -/
theorem fallsThrough (h : failure.InPlace s t other) (p : Parser Op) :
    p.fallsThrough failure s = true ∧ p.fallsThrough other t = true :=
  ⟨Parser.fallsThrough_of_start p (congrArg Stream.position h.left),
    Parser.fallsThrough_of_start p (congrArg Stream.position h.right)⟩

end Failure.InPlace

namespace Reply.InPlace

variable {α β : Type} {reply other : Reply Op α}

/-- What follows replies in place is in place, if it is so after a success. -/
theorem andThen (h : reply.InPlace s t other)
    {next follow : α → Stream (Value Op) → Run Op (Reply Op β)}
    (hnext : ∀ output, (next output s).Agree (InPlace s t) (follow output t)) :
    (reply.andThen next).Agree (InPlace s t) (other.andThen follow) := by
  cases h with
  | success output => exact hnext output
  | failure h => exact .pure (.failure h)

theorem mapOutput (h : reply.InPlace s t other) (f : α → β) :
    (reply.mapOutput f).InPlace s t (other.mapOutput f) := by
  cases h with
  | success output => exact .success (f output)
  | failure h => exact .failure h

end Reply.InPlace

namespace Parser

/-- Whether a parser gives one answer to all streams without tokens, and leaves them where
they are. -/
def StaysAtEnd (p : Parser Op) : Prop :=
  ∀ (s t : Stream (Value Op)) (context : Context), s.isAtEnd = .ok true → t.isAtEnd = .ok true →
    (p.run s context).Agree (Reply.InPlace s t) (p.run t context)

namespace StaysAtEnd

variable {p q : Parser Op}

theorem satisfying (test : Value Op → Bool) (kind : Descriptor.Kind) (labels : List (Value Op)) :
    (Parser.satisfying test kind labels).StaysAtEnd := by
  intro s t context hs ht
  have hleft : s.peek = .ok none := Stream.peek_of_isAtEnd hs
  have hright : t.peek = .ok none := Stream.peek_of_isAtEnd ht
  simp only [Parser.satisfying, hleft, hright]
  exact .pure (.failure ⟨rfl, rfl, rfl, rfl⟩)

theorem pure (v : Value Op) : (Parser.pure v).StaysAtEnd :=
  fun _ _ _ _ _ => .pure (.success v)

theorem fail (expected : Expected (Value Op)) (actual : Value Op) :
    (Parser.fail expected actual).StaysAtEnd :=
  fun _ _ _ _ _ => .pure (.failure ⟨rfl, rfl, rfl, rfl⟩)

theorem map (hp : p.StaysAtEnd) (f : Value Op → Run Op (Value Op)) : (p.map f).StaysAtEnd := by
  intro s t context hs ht
  refine (hp s t context hs ht).bind ?_
  intro reply other hreply
  refine hreply.andThen ?_
  intro output
  exact .after _ fun result _ => .pure (.success result)

/-- The second parser begins where the first one has begun. -/
theorem sequence (hp : p.StaysAtEnd) (hq : q.StaysAtEnd)
    (join : Value Op → Value Op → Run Op (Value Op)) : (p.sequence q join).StaysAtEnd := by
  intro s t context hs ht
  refine (hp s t context hs ht).bind ?_
  intro reply other hreply
  refine hreply.andThen ?_
  intro left
  refine (hq s t context.withoutName hs ht).bind ?_
  intro second third hsecond
  refine hsecond.andThen ?_
  intro right
  exact .after _ fun result _ => .pure (.success result)

/-- Marked or not, the parsers fail at the start, and their failures are merged. -/
theorem orElse (hp : p.StaysAtEnd) (hq : q.StaysAtEnd) : (p.orElse q).StaysAtEnd := by
  intro s t context hs ht
  refine (hp s t context hs ht).bind ?_
  intro reply other hreply
  cases hreply with
  | success output => exact .pure (.success output)
  | failure hleft =>
      obtain ⟨hfall, hotherFall⟩ := hleft.fallsThrough p
      simp only [if_pos hfall, if_pos hotherFall]
      refine (hq s t context hs ht).bind ?_
      intro second third hsecond
      cases hsecond with
      | success output => exact .pure (.success output)
      | failure hright =>
          obtain ⟨hmerge, hotherMerge⟩ := hright.fallsThrough q
          simp only [if_pos hmerge, if_pos hotherMerge]
          exact .pure (.failure (hleft.merge hright))

/-- The failures so far never move, so all members are tried. -/
theorem agree_firstOf {ps : List (Parser Op)} (hps : ∀ p ∈ ps, p.StaysAtEnd) (context : Context)
    (hs : s.isAtEnd = .ok true) (ht : t.isAtEnd = .ok true) {failure other : Failure (Value Op)}
    (hfailure : failure.InPlace s t other) :
    (firstOf s context failure ps).Agree (Reply.InPlace s t) (firstOf t context other ps) := by
  induction ps generalizing failure other with
  | nil => exact .pure (.failure hfailure)
  | cons p ps ih =>
      have hp : p.StaysAtEnd := hps p List.mem_cons_self
      have hmore : ∀ q ∈ ps, q.StaysAtEnd := fun q hq => hps q (List.mem_cons_of_mem _ hq)
      have hstart : failure.position = s.position := congrArg Stream.position hfailure.left
      have hotherStart : other.position = t.position := congrArg Stream.position hfailure.right
      rw [firstOf, firstOf, if_pos hstart, if_pos hotherStart]
      refine (hp s t context hs ht).bind ?_
      intro reply second hreply
      cases hreply with
      | success output => exact .pure (.success output)
      | failure hnext =>
          obtain ⟨hfall, hotherFall⟩ := hnext.fallsThrough p
          simp only [if_pos hfall, if_pos hotherFall]
          exact ih hmore (hfailure.merge hnext)

theorem alternatives {ps : List (Parser Op)} (hps : ∀ p ∈ ps, p.StaysAtEnd) :
    (Parser.alternatives ps).StaysAtEnd :=
  fun _ _ context hs ht => agree_firstOf hps context hs ht ⟨rfl, rfl, rfl, rfl⟩

/-- The first run is the last one: it has failed or has not gone on. -/
theorem repeated (hp : p.StaysAtEnd) (bounds : Bounds) (limit : Nat) :
    (p.repeated bounds limit).StaysAtEnd := by
  intro s t context hs ht
  have hloop : (p.repeatFrom context bounds.atMost.isSome (bounds.atMost.getD limit)
      bounds.atLeast s).Agree (Reply.InPlace s t)
        (p.repeatFrom context bounds.atMost.isSome (bounds.atMost.getD limit) bounds.atLeast t) := by
    cases bounds.atMost.getD limit with
    | zero =>
        rw [repeatFrom, repeatFrom]
        cases bounds.atMost.isSome with
        | true => exact .pure (.success [])
        | false => exact .unfinished
    | succ allowed =>
        rw [repeatFrom, repeatFrom]
        refine (hp s t context hs ht).bind ?_
        intro reply other hreply
        cases hreply with
        | success output =>
            simp only [if_true]
            exact .done (.success _)
        | failure h =>
            by_cases henough : bounds.atLeast = 0
            · simp only [if_pos henough]
              exact .pure (.success [])
            · simp only [if_neg henough]
              exact .pure (.failure h)
  refine hloop.bind ?_
  intro reply other hreply
  exact .pure (hreply.mapOutput Value.list)

theorem ahead (hp : p.StaysAtEnd) : p.ahead.StaysAtEnd := by
  intro s t context hs ht
  refine (hp s t context hs ht).bind ?_
  intro reply other hreply
  refine hreply.andThen ?_
  intro output
  exact .pure (.success output)

theorem notAhead (hp : p.StaysAtEnd) : p.notAhead.StaysAtEnd := by
  intro s t context hs ht
  refine (hp s t context hs ht).bind ?_
  intro reply other hreply
  cases hreply with
  | success output => exact .pure (.failure ⟨rfl, rfl, rfl, rfl⟩)
  | failure _ => exact .pure (.success Value.nothing)

theorem named (hp : p.StaysAtEnd) (name : String) : (p.named name).StaysAtEnd :=
  fun s t context => hp s t (context.withName name)

theorem namedIfAbsent (hp : p.StaysAtEnd) (name : String) : (p.namedIfAbsent name).StaysAtEnd :=
  fun s t context => hp s t (context.withDefaultName name)

theorem deferred {find : Unit → Run Op (Parser Op)}
    (hfind : ∀ p, (find ()).ending = .done p → p.StaysAtEnd) : (Parser.deferred find).StaysAtEnd :=
  fun s t context hs ht => .after _ fun p hp => hfind p hp s t context hs ht

end StaysAtEnd

end Parser

variable [Operations Op]

/-- Whether a part is neither a literal nor a parser of the user's own. -/
def Grammar.StaysAtEnd : Grammar Op → Prop
  | literal _ | custom _ => False
  | _ => True

theorem Grammar.parser_staysAtEnd {scope : String → Run Op (Parser Op)} {limit : Nat}
    (hscope : ∀ name p, (scope name).ending = .done p → p.StaysAtEnd) {g : Grammar Op}
    (hg : g.Every StaysAtEnd) : (g.parser scope limit).StaysAtEnd := by
  induction hg with
  | @intro g here below ih =>
      cases g with
      | token expected => exact .satisfying _ _ _
      | notToken unexpected => exact .satisfying _ _ _
      | oneOf choices => exact .satisfying _ _ _
      | noneOf excluded => exact .satisfying _ _ _
      | literal s => exact here.elim
      | pure v => exact .pure v
      | fail expected actual => exact .fail expected actual
      | map g f => exact (ih g (by simp [children])).map f
      | orElse g h => exact (ih g (by simp [children])).orElse (ih h (by simp [children]))
      | alternatives gs =>
          rw [parser, parsers_eq_map]
          refine .alternatives ?_
          intro p hp
          obtain ⟨part, hpart, rfl⟩ := List.mem_map.mp hp
          exact ih part hpart
      | backtracking g => exact ih g (by simp [children])
      | keepLeft g h => exact (ih g (by simp [children])).sequence (ih h (by simp [children])) _
      | keepRight g h => exact (ih g (by simp [children])).sequence (ih h (by simp [children])) _
      | apply g h => exact (ih g (by simp [children])).sequence (ih h (by simp [children])) _
      | repeated g bounds => exact (ih g (by simp [children])).repeated bounds limit
      | ahead g => exact (ih g (by simp [children])).ahead
      | notAhead g => exact (ih g (by simp [children])).notAhead
      | named g name => exact (ih g (by simp [children])).named name
      | namedIfAbsent g name => exact (ih g (by simp [children])).namedIfAbsent name
      | deferred name => exact .deferred (hscope name)
      | deferredValue v =>
          change Parser.StaysAtEnd (Parser.deferred fun _ => Run.raise (.notAParser v.typeName))
          refine .deferred ?_
          intro p hp
          cases hp
      | custom p => exact here.elim

/-- **A stream past the end is parsed as at the end**, by parsers without literals.  Among
any definitions, take a grammar without literals and parsers of the user's own, and a
position past the end of a source.  The run there and the run at the end both succeed, with
equal outputs, or both fail, with the same expected and the same found, or both raise the
same fault; and what they leave is where they have begun. -/
theorem Definitions.past_end_as_at_end {definitions : Definitions Op} {g : Grammar Op}
    (hdefs : definitions.Every Grammar.StaysAtEnd) (hg : g.Every Grammar.StaysAtEnd) (fuel : Nat)
    {source : Source (Value Op)} {size : Nat} (hsize : source.size = .ok size) {position : Int}
    (hpast : size ≤ position) (context : Context) :
    ((definitions.parser fuel g).run ⟨source, position⟩ context).Agree
      (Reply.InPlace ⟨source, position⟩ ⟨source, size⟩)
      ((definitions.parser fuel g).run ⟨source, size⟩ context) := by
  have hstays : (definitions.parser fuel g).StaysAtEnd :=
    Grammar.parser_staysAtEnd
      (definitions.resolve_induction Grammar.parser_staysAtEnd hdefs fuel) hg
  exact hstays _ _ context (Stream.isAtEnd_of_size_le hsize hpast)
    (Stream.isAtEnd_of_size_le hsize (Int.le_refl _))

/-- Past the end, brackets are missed after a repetition of nothing, as they are at the end. -/
theorem Definitions.brackets_past_end :
    let g : Grammar Stock := .keepRight (.repeated (.deferred "brackets") ⟨2, none, nofun⟩)
      (.alternatives [.token (.char '('), .backtracking (.token (.char ')'))])
    let source : Source (Value Stock) := .whole (.text ['(', ')'])
    source.size = .ok 2 ∧ (2 : Nat) ≤ (5 : Int)
      ∧ ((brackets.parser 1 g).run ⟨source, 5⟩ {}).Agree (Reply.InPlace ⟨source, 5⟩ ⟨source, 2⟩)
        ((brackets.parser 1 g).run ⟨source, (2 : Nat)⟩ {}) := by
  intro g source
  have hsize : source.size = .ok 2 := rfl
  have hpast : (2 : Nat) ≤ (5 : Int) := by decide
  have hdefs : brackets.Every Grammar.StaysAtEnd := by
    intro entry hentry
    obtain rfl := List.mem_singleton.mp hentry
    refine .pair trivial rfl ?_ (.leaf trivial rfl)
    refine .pair trivial rfl (.leaf trivial rfl) ?_
    exact .pair trivial rfl (.leaf trivial rfl) (.leaf trivial rfl)
  have hg : g.Every Grammar.StaysAtEnd := by
    refine .pair trivial rfl (.only trivial rfl (.leaf trivial rfl)) ?_
    exact .pair trivial rfl (.leaf trivial rfl) (.only trivial rfl (.leaf trivial rfl))
  exact ⟨hsize, hpast, past_end_as_at_end hdefs hg 1 hsize hpast {}⟩

/-- Past the end, a choice does not go on after a literal, and a repetition takes an empty
literal twice.  At the end, the one goes on to a success and the other takes it once. -/
theorem Definitions.literal_goes_back_to_end :
    let choice : Parser Stock := (Definitions.mk []).parser 1
      (.orElse (.literal "a") (.pure (.text "b")))
    let repetition : Parser Stock := (Definitions.mk []).parser 2 (.repeated (.literal "") .any)
    let source : Source (Value Stock) := .whole (.text [])
    choice.Fails ⟨source, 1⟩ {}
        { expected := .described ⟨.oneOf, [.text "a"]⟩, actual := .endOfInput
          remainder := ⟨source, 0⟩ }
      ∧ choice.Matches ⟨source, 0⟩ {} (.text "b") ⟨source, 0⟩
      ∧ repetition.Matches ⟨source, 1⟩ {} (.list [.text "", .text ""]) ⟨source, 0⟩
      ∧ repetition.Matches ⟨source, 0⟩ {} (.list [.text ""]) ⟨source, 0⟩ :=
  ⟨rfl, rfl, rfl, rfl⟩

end Tokenwise
