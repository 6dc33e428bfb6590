import Tokenwise.Proofs.Choice.Chain
import Tokenwise.Proofs.Grammar.Marks
import Tokenwise.Proofs.Parser.Onward

/-!
# Marks are conservative

Marking an operand of a choice lets the choice go on where it would have stopped with
a failure past the start.  Where it would not have stopped, the mark is not asked for.
So the parser with marks does what the parser without them does, as long as the latter
succeeds or fails at the start.

One parser is **kept by** another when the other one has all its matches and all its
failures at the start (`Parser.KeptBy`).  Failures past the start are left free, and
no combinator but the choice can tell.  A choice between unmarked parsers looks past
its first operand only after a failure at the start.  In a sequence, a failure of the second
parser which lies at the start of the whole lies at its own start too, since the first
one has not gone back in between (`Parser.KeptBy.sequence`).

A repetition and a negative lookahead would not do: they succeed after any failure of
their parser, those past the start among them.
-/

namespace Tokenwise

variable {Op : Type}

namespace Parser

/-- Whether `q` matches wherever `p` does, and fails wherever `p` fails at the start, and
as `p` does. -/
structure KeptBy (p q : Parser Op) : Prop where
  matches_of : ∀ {size : Nat} {stream remainder : Stream (Value Op)} {context : Context}
    {output : Value Op}, stream.Inside size → p.Matches stream context output remainder →
      q.Matches stream context output remainder
  fails_of : ∀ {size : Nat} {stream : Stream (Value Op)} {context : Context}
    {failure : Failure (Value Op)}, stream.Inside size → p.Fails stream context failure →
      failure.position = stream.position → q.Fails stream context failure

namespace KeptBy

variable {p q p' q' : Parser Op}

theorem refl (p : Parser Op) : p.KeptBy p := ⟨fun _ h => h, fun _ h _ => h⟩

/-- Only the runs count. -/
theorem of_run_eq (h : p'.KeptBy q')
    (hp : ∀ stream context, p.run stream context = p'.run stream context)
    (hq : ∀ stream context, q.run stream context = q'.run stream context) : p.KeptBy q where
  matches_of := by
    intro size stream remainder context output hinside hmatches
    unfold Matches at hmatches ⊢
    rw [hp] at hmatches
    rw [hq]
    exact h.matches_of hinside hmatches
  fails_of := by
    intro size stream context failure hinside hfails hstart
    unfold Fails at hfails ⊢
    rw [hp] at hfails
    rw [hq]
    exact h.fails_of hinside hfails hstart

theorem map (hp : p.KeptBy p') (f : Value Op → Run Op (Value Op)) : (p.map f).KeptBy (p'.map f) where
  matches_of := by
    intro size stream remainder context output hinside hmatches
    rw [matches_map_iff] at hmatches ⊢
    obtain ⟨first, hfirst, hresult⟩ := hmatches
    exact ⟨first, hp.matches_of hinside hfirst, hresult⟩
  fails_of := by
    intro size stream context failure hinside hfails hstart
    rw [fails_map_iff] at hfails ⊢
    exact hp.fails_of hinside hfails hstart

/-- Here the first parser must not go back: the second one then fails at its own start
if it fails at the start of the sequence. -/
theorem sequence (hp : p.KeptBy p') (hq : q.KeptBy q') (hpon : p.Advances) (hqon : q.Advances)
    (join : Value Op → Value Op → Run Op (Value Op)) :
    (p.sequence q join).KeptBy (p'.sequence q' join) where
  matches_of := by
    intro size stream remainder context output hinside hmatches
    rw [matches_sequence_iff] at hmatches ⊢
    obtain ⟨left, middle, right, hleft, hright, hresult⟩ := hmatches
    have hmiddle : middle.Inside size := hinside.onward (hpon hinside hleft)
    exact ⟨left, middle, right, hp.matches_of hinside hleft, hq.matches_of hmiddle hright, hresult⟩
  fails_of := by
    intro size stream context failure hinside hfails hstart
    rw [fails_sequence_iff] at hfails ⊢
    obtain hfirst | ⟨left, middle, hleft, hsecond⟩ := hfails
    · exact .inl (hp.fails_of hinside hfirst hstart)
    · have hon : stream.Onward size middle := hpon hinside hleft
      have hmiddle : middle.Inside size := hinside.onward hon
      have hpast : middle.position ≤ failure.position := (hqon hmiddle hsecond).forward
      have hforward : stream.position ≤ middle.position := hon.forward
      have hown : failure.position = middle.position := by omega
      exact .inr ⟨left, middle, hp.matches_of hinside hleft, hq.fails_of hmiddle hsecond hown⟩

/-- Whether the parsers on the other side are marked does not matter: between unmarked
parsers, only failures at the start let a choice go on. -/
theorem orElse (hp : p.KeptBy p') (hq : q.KeptBy q') (hpmark : p.backtracks = false)
    (hqmark : q.backtracks = false) : (p.orElse q).KeptBy (p'.orElse q') where
  matches_of := by
    intro size stream remainder context output hinside hmatches
    rw [matches_orElse_iff] at hmatches ⊢
    obtain hfirst | ⟨left, hleft, hfall, hsecond⟩ := hmatches
    · exact .inl (hp.matches_of hinside hfirst)
    · have hstart : left.position = stream.position := (fallsThrough_iff_of_unmarked hpmark).mp hfall
      exact .inr ⟨left, hp.fails_of hinside hleft hstart, fallsThrough_of_start p' hstart,
        hq.matches_of hinside hsecond⟩
  fails_of := by
    intro size stream context failure hinside hfails hstart
    rw [fails_orElse_iff] at hfails ⊢
    obtain ⟨left, hleft, ⟨hstop, rfl⟩ | ⟨hfall, right, hright, rfl⟩⟩ := hfails
    · exact absurd (fallsThrough_of_start p hstart) hstop
    · have hleftStart : left.position = stream.position :=
        (fallsThrough_iff_of_unmarked hpmark).mp hfall
      have hrightStart : right.position = stream.position := by
        by_cases hmerge : q.fallsThrough right stream
        · exact (fallsThrough_iff_of_unmarked hqmark).mp hmerge
        · rwa [if_neg hmerge] at hstart
      refine ⟨left, hp.fails_of hinside hleft hleftStart, .inr ⟨fallsThrough_of_start p' hleftStart,
        right, hq.fails_of hinside hright hrightStart, ?_⟩⟩
      rw [if_pos (fallsThrough_of_start q hrightStart),
        if_pos (fallsThrough_of_start q' hrightStart)]

section Many

variable {ι : Type} {plain marked : ι → Parser Op}

theorem foldl_orElse (hp : p.KeptBy p') (hpmark : p.backtracks = false) {members : List ι}
    (hmembers : ∀ member ∈ members, (plain member).KeptBy (marked member))
    (hmarks : ∀ member ∈ members, (plain member).backtracks = false) :
    ((members.map plain).foldl Parser.orElse p).KeptBy
      ((members.map marked).foldl Parser.orElse p') := by
  induction members generalizing p p' with
  | nil => exact hp
  | cons member members ih =>
      have hmember : (plain member).KeptBy (marked member) := hmembers member List.mem_cons_self
      have hmark : (plain member).backtracks = false := hmarks member List.mem_cons_self
      exact ih (hp.orElse hmember hpmark hmark) rfl
        (fun other hother => hmembers other (List.mem_cons_of_mem _ hother))
        (fun other hother => hmarks other (List.mem_cons_of_mem _ hother))

/-- A choice among many is a chain of choices between two. -/
theorem alternatives {members : List ι}
    (hmembers : ∀ member ∈ members, (plain member).KeptBy (marked member))
    (hmarks : ∀ member ∈ members, (plain member).backtracks = false) :
    (Parser.alternatives (members.map plain)).KeptBy
      (Parser.alternatives (members.map marked)) := by
  cases members with
  | nil => exact refl _
  | cons member members =>
      have hfirst : (plain member).withoutMark.KeptBy (marked member).withoutMark :=
        ⟨(hmembers member List.mem_cons_self).matches_of,
          (hmembers member List.mem_cons_self).fails_of⟩
      have hchain := hfirst.foldl_orElse rfl
        (fun other hother => hmembers other (List.mem_cons_of_mem _ hother))
        (fun other hother => hmarks other (List.mem_cons_of_mem _ hother))
      exact hchain.of_run_eq (run_alternatives_cons _ _) (run_alternatives_cons _ _)

end Many

theorem ahead (hp : p.KeptBy p') : p.ahead.KeptBy p'.ahead where
  matches_of := by
    intro size stream remainder context output hinside hmatches
    rw [matches_ahead_iff] at hmatches ⊢
    obtain ⟨hstay, finish, hfirst⟩ := hmatches
    exact ⟨hstay, finish, hp.matches_of hinside hfirst⟩
  fails_of := by
    intro size stream context failure hinside hfails hstart
    rw [fails_ahead_iff] at hfails ⊢
    exact hp.fails_of hinside hfails hstart

theorem deferred {find look : Unit → Run Op (Parser Op)}
    (hfind : ∀ p, (find ()).ending = .done p →
      ∃ q, (look ()).ending = .done q ∧ p.KeptBy q) :
    (Parser.deferred find).KeptBy (.deferred look) where
  matches_of := by
    intro size stream remainder context output hinside hmatches
    obtain ⟨p, hp, hreply⟩ := deferred_ending_eq_done_iff.mp hmatches
    obtain ⟨q, hq, hkept⟩ := hfind p hp
    exact deferred_ending_eq_done_iff.mpr ⟨q, hq, hkept.matches_of hinside hreply⟩
  fails_of := by
    intro size stream context failure hinside hfails hstart
    obtain ⟨p, hp, hreply⟩ := deferred_ending_eq_done_iff.mp hfails
    obtain ⟨q, hq, hkept⟩ := hfind p hp
    exact deferred_ending_eq_done_iff.mpr ⟨q, hq, hkept.fails_of hinside hreply hstart⟩

end KeptBy

end Parser

/-- Whether a part is neither a repetition nor a negative lookahead, which succeed after
failures of their parser, nor a parser of the user's own. -/
def Grammar.PassesFailuresOn : Grammar Op → Prop
  | repeated _ _ | notAhead _ | custom _ => False
  | _ => True

theorem Grammar.every_ne_custom {g : Grammar Op} (hg : g.Every PassesFailuresOn) :
    g.Every fun part => ∀ p, part ≠ .custom p :=
  hg.ne_custom fun _ => id

variable [Operations Op]

/-- The parser of a grammar without its marks is kept by that of the grammar, if this
is so of what the names in it are found as. -/
theorem Grammar.parser_withoutMarks_keptBy {plain marked : String → Run Op (Parser Op)} {limit : Nat}
    (hbuilt : ∀ name p, (plain name).ending = .done p → p.Built fun _ => False)
    (hscope : ∀ name p, (plain name).ending = .done p →
      ∃ q, (marked name).ending = .done q ∧ p.KeptBy q)
    {g : Grammar Op} (hg : g.Every PassesFailuresOn) :
    (g.withoutMarks.parser plain limit).KeptBy (g.parser marked limit) := by
  have hadvances : ∀ {part : Grammar Op}, part.Every PassesFailuresOn →
      (part.withoutMarks.parser plain limit).Advances := fun hpart =>
    (parser_built hbuilt (every_withoutMarks (every_ne_custom hpart))).advances fun _ h => h.elim
  have hunmarked : ∀ {part : Grammar Op}, part.Every PassesFailuresOn →
      (part.withoutMarks.parser plain limit).backtracks = false := fun hpart =>
    (parser_backtracks _ _ _).trans (isMarked_withoutMarks (every_ne_custom hpart))
  induction hg with
  | @intro g here below ih =>
      cases g with
      | map g f => exact (ih g (by simp [children])).map f
      | orElse g h =>
          have hg : g ∈ (orElse g h).children := by simp [children]
          have hh : h ∈ (orElse g h).children := by simp [children]
          exact (ih g hg).orElse (ih h hh) (hunmarked (below g hg)) (hunmarked (below h hh))
      | alternatives gs =>
          simp only [withoutMarks, parser, allWithoutMarks_eq_map, parsers_eq_map, List.map_map]
          exact .alternatives ih fun member hmember => hunmarked (below member hmember)
      | backtracking g =>
          have hkept := ih g (by simp [children])
          exact ⟨hkept.matches_of, hkept.fails_of⟩
      | keepLeft g h =>
          have hg : g ∈ (keepLeft g h).children := by simp [children]
          have hh : h ∈ (keepLeft g h).children := by simp [children]
          exact (ih g hg).sequence (ih h hh) (hadvances (below g hg)) (hadvances (below h hh)) _
      | keepRight g h =>
          have hg : g ∈ (keepRight g h).children := by simp [children]
          have hh : h ∈ (keepRight g h).children := by simp [children]
          exact (ih g hg).sequence (ih h hh) (hadvances (below g hg)) (hadvances (below h hh)) _
      | apply g h =>
          have hg : g ∈ (apply g h).children := by simp [children]
          have hh : h ∈ (apply g h).children := by simp [children]
          exact (ih g hg).sequence (ih h hh) (hadvances (below g hg)) (hadvances (below h hh)) _
      | ahead g => exact (ih g (by simp [children])).ahead
      | named g name =>
          have hkept := ih g (by simp [children])
          exact ⟨hkept.matches_of, hkept.fails_of⟩
      | namedIfAbsent g name =>
          have hkept := ih g (by simp [children])
          exact ⟨hkept.matches_of, hkept.fails_of⟩
      | deferred name => exact .deferred (hscope name)
      | repeated g bounds => exact here.elim
      | notAhead g => exact here.elim
      | custom p => exact here.elim
      | token expected => exact .refl _
      | notToken unexpected => exact .refl _
      | oneOf choices => exact .refl _
      | noneOf excluded => exact .refl _
      | literal s => exact .refl _
      | pure v => exact .refl _
      | fail expected actual => exact .refl _
      | deferredValue v => exact .refl _

namespace Definitions

variable {definitions : Definitions Op}

theorem resolve_withoutMarks_built (hdefs : definitions.Every Grammar.PassesFailuresOn) (fuel : Nat) :
    ∀ name p, (definitions.withoutMarks.resolve fuel name).ending = .done p →
      p.Built fun _ => False :=
  resolve_induction Grammar.parser_built
    (every_withoutMarks fun entry hentry => Grammar.every_ne_custom (hdefs entry hentry)) fuel

/-- What a name is found as without marks is kept by what it is found as. -/
theorem resolve_withoutMarks_keptBy (hdefs : definitions.Every Grammar.PassesFailuresOn) (fuel : Nat) :
    ∀ name p, (definitions.withoutMarks.resolve fuel name).ending = .done p →
      ∃ q, (definitions.resolve fuel name).ending = .done q ∧ p.KeptBy q := by
  induction fuel with
  | zero => exact fun _ _ h => nomatch h
  | succ fuel ih =>
      intro name p hp
      rw [resolve, find?_withoutMarks] at hp
      rw [resolve]
      cases hfind : definitions.find? name with
      | none => simp [hfind, Run.raise] at hp
      | some g =>
          rw [hfind] at hp
          cases hp
          exact ⟨_, rfl, Grammar.parser_withoutMarks_keptBy
            (resolve_withoutMarks_built hdefs fuel) ih (hdefs.of_find? hfind)⟩

/-- **Marks are conservative.**  Take any definitions and a grammar, with marks for
backtracking anywhere, but without repetition, negative lookahead and parsers of the
user's own.  If all marks are taken off and the parser then succeeds, or fails where it
has been applied, it makes the same reply with the marks. -/
theorem reply_with_marks_eq (hdefs : definitions.Every Grammar.PassesFailuresOn) {g : Grammar Op}
    (hg : g.Every Grammar.PassesFailuresOn) (fuel : Nat) {stream : Stream (Value Op)} {size : Nat}
    (hsize : stream.source.size = .ok size) (hend : stream.position ≤ size) (context : Context)
    {reply : Reply Op (Value Op)}
    (hrun : ((definitions.withoutMarks.parser fuel g.withoutMarks).run stream context).ending
      = .done reply)
    (hstart : ∀ failure, reply = .failure failure → failure.position = stream.position) :
    ((definitions.parser fuel g).run stream context).ending = .done reply := by
  have hkept : (definitions.withoutMarks.parser fuel g.withoutMarks).KeptBy
      (definitions.parser fuel g) :=
    Grammar.parser_withoutMarks_keptBy (resolve_withoutMarks_built hdefs fuel)
      (resolve_withoutMarks_keptBy hdefs fuel) hg
  cases reply with
  | success output remainder => exact hkept.matches_of ⟨hsize, hend⟩ hrun
  | failure failure => exact hkept.fails_of ⟨hsize, hend⟩ hrun (hstart failure rfl)

/-- Brackets with marks on both operands of their choice are matched as brackets without
any. -/
theorem marked_brackets_reply :
    let marked : Definitions Stock := ⟨[("brackets", .orElse
      (.backtracking (.keepRight (.token (.char '('))
        (.keepLeft (.deferred "brackets") (.token (.char ')')))))
      (.backtracking (.pure .nothing)))]⟩
    let stream : Stream (Value Stock) := ⟨.whole (.text ['-', '(', '(', ')', ')', '-']), 1⟩
    let reply : Reply Stock (Value Stock) := .success .nothing ⟨stream.source, 5⟩
    marked.withoutMarks = brackets
      ∧ ((marked.withoutMarks.parser 4 (.deferred "brackets")).run stream {}).ending = .done reply
      ∧ ((marked.parser 4 (.deferred "brackets")).run stream {}).ending = .done reply := by
  intro marked stream reply
  have hdefs : marked.Every Grammar.PassesFailuresOn := by
    intro entry hentry
    obtain rfl := List.mem_singleton.mp hentry
    refine .pair trivial rfl (.only trivial rfl ?_) (.only trivial rfl (.leaf trivial rfl))
    refine .pair trivial rfl (.leaf trivial rfl) ?_
    exact .pair trivial rfl (.leaf trivial rfl) (.leaf trivial rfl)
  have hg : (Grammar.deferred "brackets" : Grammar Stock).Every Grammar.PassesFailuresOn :=
    .leaf trivial rfl
  have hrun : ((marked.withoutMarks.parser 4 (.deferred "brackets")).run stream {}).ending
      = .done reply := rfl
  have hend : stream.position ≤ (6 : Nat) := by decide
  exact ⟨rfl, hrun, reply_with_marks_eq hdefs hg 4 rfl hend {} hrun nofun⟩

end Definitions

end Tokenwise
