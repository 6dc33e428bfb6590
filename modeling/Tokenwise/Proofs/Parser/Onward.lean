import Tokenwise.Proofs.Parser.Simulation

/-!
# Parsers only go on

Whatever a parser replies, it has left a view of the source that it was applied
to, and its position has come no further than the end of the source and has not
gone back.  This holds of a failure too: the place of the mismatch is one of those
that were still to be read.

`Stream.Onward` is the relation between the stream that a parser is applied to
and the one that it leaves, and `Parser.Advances` says that a parser keeps to it.
Advancing keeps to it (`Stream.Inside.advance`), and so does going on from where one has
come to (`Stream.Onward.trans`).  That is all the combinators need, as comparing a run
with itself shows (`Course.onward`).  The main statement,
`Definitions.remainder_between_start_and_end`, is for all grammars.

The source is never left, wherever the stream stands, be it past the end: this is a
course of its own (`Course.sameSource`).  `Stream.LeadsTo` is what holds in both cases, of
a stream inside the source and of any other.
-/

namespace Tokenwise

namespace Stream

variable {α : Type}

/-- Whether the position of a stream is not past the end of its source, which
has `size` tokens. -/
def Inside (size : Nat) (stream : Stream α) : Prop :=
  stream.source.size = .ok size ∧ stream.position ≤ size

/-- Whether `finish` is a view of the same source as `start`, no earlier and no
later than at the end. -/
structure Onward (size : Nat) (start finish : Stream α) : Prop where
  source : finish.source = start.source
  forward : start.position ≤ finish.position
  inside : finish.position ≤ size

variable {size : Nat} {start middle finish : Stream α}

theorem Inside.refl (h : start.Inside size) : Onward size start start :=
  ⟨rfl, Int.le_refl _, h.2⟩

theorem Onward.trans (hfirst : Onward size start middle) (hsecond : Onward size middle finish) :
    Onward size start finish where
  source := hsecond.source.trans hfirst.source
  forward := Int.le_trans hfirst.forward hsecond.forward
  inside := hsecond.inside

/-- Whether `finish` is a view of the same source as `start`, and onward of it where `start`
lies inside. -/
def LeadsTo (start finish : Stream α) : Prop :=
  finish.source = start.source ∧ ∀ size, start.Inside size → Onward size start finish

theorem Inside.onward (h : start.Inside size) (hon : Onward size start finish) :
    finish.Inside size :=
  ⟨hon.source ▸ h.1, hon.inside⟩

/-- Two views of one source from one position are the same stream. -/
theorem eq_of_source_of_position (hsource : finish.source = start.source)
    (hposition : finish.position = start.position) : finish = start := by
  rcases start with ⟨source, position⟩
  obtain rfl : finish.source = source := hsource
  obtain rfl : finish.position = position := hposition
  rfl

/-- Advancing stays in the source, wherever the stream stands. -/
theorem source_of_advance {amount : Int} (h : start.advance amount = .ok finish) :
    finish.source = start.source := by
  rw [Stream.advance] at h
  cases hsize : start.source.size with
  | ok size =>
      rw [hsize] at h
      cases h
      rfl
  | error fault =>
      rw [hsize] at h
      cases h

/-- Advancing by a number of tokens goes on, and stops at the end. -/
theorem Inside.advance (h : start.Inside size) {amount : Nat}
    (hfinish : start.advance amount = .ok finish) : Onward size start finish := by
  obtain ⟨hsize, hend⟩ := h
  rw [Stream.advance, hsize] at hfinish
  cases hfinish
  refine ⟨rfl, ?_, ?_⟩
  · change start.position ≤ min (start.position + amount) size
    omega
  · change min (start.position + amount) (size : Int) ≤ size
    omega

end Stream

variable {Op : Type}

/-- Each run is compared with itself, and may come to what lies between where it has
begun and the end of the source. -/
def Course.onward (size : Nat) : Course Op where
  Begin s t := s = t ∧ s.Inside size
  Reach s _ finish last := finish = last ∧ s.Onward size finish
  refl := fun hbegin => ⟨hbegin.1, hbegin.2.refl⟩
  trans := fun _ hfirst hsecond => ⟨hsecond.1, hfirst.2.trans hsecond.2⟩
  again := fun hbegin hreach => ⟨hreach.1, hbegin.2.onward hreach.2⟩
  position_eq_iff := by
    intro s t finish last hbegin hreach
    rw [hbegin.1, hreach.1]
  peek_eq := fun hbegin => congrArg Stream.peek hbegin.1
  advance := by
    intro s t hbegin amount
    obtain ⟨rfl, hinside⟩ := hbegin
    cases hadvance : s.advance amount with
    | ok finish => exact .pure ⟨rfl, hinside.advance hadvance⟩
    | error fault => exact .raised fault

namespace Parser

/-- Whether the runs of a parser only go on in the source that it is applied to. -/
def Advances (p : Parser Op) : Prop :=
  ∀ {size : Nat} {stream : Stream (Value Op)} {context : Context} {reply : Reply Op (Value Op)},
    stream.Inside size → (p.run stream context).ending = .done reply →
      stream.Onward size reply.remainder

theorem Advances.respects {p : Parser Op} (hp : p.Advances) (size : Nat) :
    (Course.onward size).simulation.Respects p := by
  intro s t context other hbegin hcontext
  obtain ⟨rfl, hinside⟩ := hbegin
  obtain rfl : context = other := hcontext
  refine .self fun reply hreply => ?_
  have hon : s.Onward size reply.remainder := hp hinside hreply
  cases reply with
  | success output remainder => exact .success output ⟨rfl, hon⟩
  | failure failure => exact .failure ⟨rfl, rfl, rfl, hon⟩

/-- **Every combinator only goes on.**  A parser that is built advances, if the
parsers of the user's own that it is built from do. -/
theorem Built.advances {allowed : Parser Op → Prop} (hallowed : ∀ p, allowed p → p.Advances)
    {p : Parser Op} (h : p.Built allowed) : p.Advances := by
  intro size stream context reply hinside hreply
  have hrespects : (Course.onward size).simulation.Respects p :=
    h.respects fun q hq => Advances.respects (hallowed q hq) size
  obtain ⟨second, -, hsecond⟩ := (hrespects ⟨rfl, hinside⟩ rfl).exists_done hreply
  exact hsecond.reach.2

end Parser

/-- Each run is compared with itself, and may come to any stream over its source. -/
def Course.sameSource : Course Op where
  Begin s t := t = s
  Reach s _ finish last := last = finish ∧ finish.source = s.source
  refl := fun hbegin => ⟨hbegin, rfl⟩
  trans := fun _ hfirst hsecond => ⟨hsecond.1, hsecond.2.trans hfirst.2⟩
  again := fun _ hreach => hreach.1
  position_eq_iff := by
    intro s t finish last hbegin hreach
    rw [hbegin, hreach.1]
  peek_eq := fun hbegin => congrArg Stream.peek hbegin.symm
  advance := by
    intro s t hbegin amount
    obtain rfl : t = s := hbegin
    cases hadvance : t.advance amount with
    | ok finish => exact .pure ⟨rfl, Stream.source_of_advance hadvance⟩
    | error fault => exact .raised fault

theorem Simulation.Respects.source_eq {p : Parser Op}
    (hp : Course.sameSource.simulation.Respects p) {stream : Stream (Value Op)} {context : Context}
    {reply : Reply Op (Value Op)} (hrun : (p.run stream context).ending = .done reply) :
    reply.remainder.source = stream.source := by
  obtain ⟨second, -, hsecond⟩ := (hp rfl rfl).exists_done hrun
  exact hsecond.reach.2

/-- With no parser of the user's own in it, a parser leads onward from wherever it is applied. -/
theorem Parser.Built.leadsTo {p : Parser Op} (hp : p.Built fun _ => False)
    {stream : Stream (Value Op)} {context : Context} {reply : Reply Op (Value Op)}
    (hrun : (p.run stream context).ending = .done reply) : stream.LeadsTo reply.remainder := by
  have hrespects : Course.sameSource.simulation.Respects p := hp.respects fun _ h => h.elim
  have hadvances : p.Advances := hp.advances fun _ h => h.elim
  exact ⟨hrespects.source_eq hrun, fun size hinside => hadvances hinside hrun⟩

/-- **The remainder lies between the start and the end.**  Among any definitions,
a grammar without parsers of the user's own leaves the source that it is applied
to.  If its run is done, then where it has succeeded, or where it reports the
mismatch, is not before the start and not past the end. -/
theorem Definitions.remainder_between_start_and_end [Operations Op]
    {definitions : Definitions Op} {g : Grammar Op}
    (hdefs : definitions.Every fun part => ∀ p, part ≠ .custom p)
    (hg : g.Every fun part => ∀ p, part ≠ .custom p)
    (fuel : Nat) {stream : Stream (Value Op)} {size : Nat}
    (hsize : stream.source.size = .ok size) (hend : stream.position ≤ size)
    (context : Context) {reply : Reply Op (Value Op)}
    (hrun : ((definitions.parser fuel g).run stream context).ending = .done reply) :
    reply.remainder.source = stream.source ∧ stream.position ≤ reply.remainder.position
      ∧ reply.remainder.position ≤ size := by
  have hbuilt : (definitions.parser fuel g).Built fun _ => False :=
    definitions.parser_built hdefs hg fuel
  have hadvances : (definitions.parser fuel g).Advances := hbuilt.advances fun _ h => h.elim
  have hon : stream.Onward size reply.remainder := hadvances ⟨hsize, hend⟩ hrun
  exact ⟨hon.source, hon.forward, hon.inside⟩

/-- A bracket that is missing is reported where it was expected, after two others. -/
theorem Definitions.missing_bracket_between_start_and_end :
    let stream : Stream (Value Stock) := ⟨.whole (.text ['-', '(', '(', ')', '-']), 1⟩
    let reply : Reply Stock (Value Stock) := .failure
      { expected := .described ⟨.oneOf, [.char ')']⟩, actual := .char '-'
        remainder := ⟨stream.source, 4⟩ }
    ((brackets.parser 3 (.deferred "brackets")).run stream {}).ending = .done reply
      ∧ reply.remainder.source = stream.source ∧ stream.position ≤ reply.remainder.position
      ∧ reply.remainder.position ≤ (5 : Nat) := by
  intro stream reply
  have hg : (Grammar.deferred "brackets" : Grammar Stock).Every fun part => ∀ p, part ≠ .custom p :=
    .leaf nofun rfl
  have hend : stream.position ≤ (5 : Nat) := by decide
  have hrun : ((brackets.parser 3 (.deferred "brackets")).run stream {}).ending
      = .done reply := rfl
  refine ⟨hrun, ?_⟩
  exact remainder_between_start_and_end (every_brackets fun _ hpart => hpart) hg 3 rfl hend {} hrun

end Tokenwise
