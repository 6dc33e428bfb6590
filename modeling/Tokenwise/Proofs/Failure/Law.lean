import Mathlib.Data.List.Induction
import Tokenwise.Proofs.Choice.Merging
import Tokenwise.Proofs.Grammar.Marks

/-!
# Laws of failures

A failure that a parser reports was first the mismatch of a matcher.  On the way up it
is passed on, or merged with the failure of another alternative, and nothing else ever
happens to it.  So what holds of mismatches, and is not lost in a merge, holds of all
failures.

A `FailureLaw` is such a statement, together with the streams and the contexts for
which it is made.  Merging may need both failures to lie at one place, and then it
asks of a choice that it merges in place (`Parser.MergesInPlace`).

`FailureLaw.Permits` collects what a law asks of each part of a grammar, and
`FailureLaw.holds_of_fails` is the induction, done here once: among definitions whose
parts are all permitted, no grammar of permitted parts ever breaks the law.  What the
parts ask of each other, a choice of its operands, is asked of the parsers that they
stand for among these definitions.
-/

namespace Tokenwise

/-- Whether a choice goes on after a grammar only where it has failed at the start,
whatever the names in it are found as. -/
def Grammar.FallsThroughAtStart {Op : Type} [Operations Op] (g : Grammar Op) : Prop :=
  ∀ scope limit, (g.parser scope limit).FallsThroughAtStart

theorem Grammar.fallsThroughAtStart_of_unmarked {Op : Type} [Operations Op] {g : Grammar Op}
    (h : g.isMarked = false) : g.FallsThroughAtStart := by
  intro scope limit
  apply Parser.fallsThroughAtStart_of_unmarked
  rw [parser_backtracks, h]

/-- What is to hold of failures, for which streams and contexts, and whether it outlasts
a merge of failures that lie apart. -/
structure FailureLaw (Op : Type) where
  Holds : Failure (Value Op) → Prop
  Reads : Stream (Value Op) → Prop
  Told : Context → Prop
  Apart : Prop
  reads_onward : ∀ {start finish : Stream (Value Op)}, Reads start → start.LeadsTo finish →
    Reads finish
  -- sequencing runs its second parser without a name
  told_nameless : Told {}
  merge : ∀ {left right : Failure (Value Op)}, Holds left → Holds right →
    Apart ∨ left.remainder = right.remainder → Holds (left.merge right)

namespace FailureLaw

variable {Op : Type} (law : FailureLaw Op)

/-- Whether the law holds of all failures that a parser reports. -/
def HoldsFor (p : Parser Op) : Prop :=
  ∀ {stream : Stream (Value Op)} {context : Context} {failure : Failure (Value Op)},
    law.Reads stream → law.Told context → p.Fails stream context failure → law.Holds failure

/-- Whether the law outlasts what a choice between two parsers merges. -/
def AllowsMerging (p q : Parser Op) : Prop :=
  law.Apart ∨ ∀ stream context, law.Reads stream → law.Told context →
    p.MergesInPlace q stream context

/-- Whether a parser is built with no parser of the user's own and never breaks the law. -/
structure Governs (p : Parser Op) : Prop where
  built : p.Built fun _ => False
  holds : law.HoldsFor p

variable {law} {p q : Parser Op}

namespace Governs

theorem map (hp : law.Governs p) (f : Value Op → Run Op (Value Op)) : law.Governs (p.map f) where
  built := .map hp.built f
  holds := fun hreads htold hfails => hp.holds hreads htold (Parser.fails_map_iff.mp hfails)

theorem sequence (hp : law.Governs p) (hq : law.Governs q)
    (join : Value Op → Value Op → Run Op (Value Op)) : law.Governs (p.sequence q join) where
  built := .sequence hp.built hq.built join
  holds := by
    intro stream context failure hreads htold hfails
    obtain hfirst | ⟨left, middle, hleft, hsecond⟩ := Parser.fails_sequence_iff.mp hfails
    · exact hp.holds hreads htold hfirst
    · exact hq.holds (law.reads_onward hreads (hp.built.leadsTo hleft)) law.told_nameless hsecond

theorem orElse (hp : law.Governs p) (hq : law.Governs q) (hmerges : law.AllowsMerging p q) :
    law.Governs (p.orElse q) where
  built := .orElse hp.built hq.built
  holds := by
    intro stream context failure hreads htold hfails
    obtain ⟨left, hleft, ⟨-, rfl⟩ | ⟨hfirst, right, hright, rfl⟩⟩ :=
      Parser.fails_orElse_iff.mp hfails
    · exact hp.holds hreads htold hleft
    · have hl : law.Holds left := hp.holds hreads htold hleft
      have hr : law.Holds right := hq.holds hreads htold hright
      by_cases hsecond : q.fallsThrough right stream
      · rw [if_pos hsecond]
        refine law.merge hl hr (hmerges.imp_right ?_)
        intro hplace
        have hposition : left.position = right.position :=
          hplace stream context hreads htold left right hleft hfirst hright hsecond
        have hsource : left.remainder.source = right.remainder.source :=
          (hp.built.leadsTo hleft).1.trans (hq.built.leadsTo hright).1.symm
        exact Stream.eq_of_source_of_position hsource hposition
      · rwa [if_neg hsecond]

/-- Alternatives are merged one after the other, each with what has come of those before it.
The first of them is not merged with anything. -/
theorem alternatives {members : List (Parser Op)} (hmembers : ∀ q ∈ members, law.Governs q)
    (hnone : members = [] → law.HoldsFor .fail)
    (hmerges : ∀ before q after, members = before ++ q :: after → before ≠ [] →
      law.AllowsMerging (.alternatives before) q) :
    law.Governs (.alternatives members) := by
  induction members using List.reverseRecOn with
  | nil => exact ⟨.alternatives nofun, hnone rfl⟩
  | append_singleton before q ih =>
      have hq : law.Governs q := hmembers q (by simp)
      refine ⟨.alternatives fun r hr => (hmembers r hr).built, ?_⟩
      intro stream context failure hreads htold hfails
      by_cases hfirst : before = []
      · subst hfirst
        rw [Parser.Fails, List.nil_append, Parser.run_alternatives_cons] at hfails
        exact hq.holds hreads htold hfails
      · have hbefore : law.Governs (.alternatives before) := by
          refine ih (fun r hr => hmembers r (by simp [hr])) (fun hnil => absurd hnil hfirst) ?_
          intro earlier r later hsplit
          exact hmerges earlier r (later ++ [q]) (by simp [hsplit])
        rw [Parser.Fails, Parser.run_alternatives_concat] at hfails
        exact (hbefore.orElse hq (hmerges before q [] rfl hfirst)).holds hreads htold hfails

theorem repeated (hp : law.Governs p) (bounds : Bounds) (limit : Nat) :
    law.Governs (p.repeated bounds limit) where
  built := .repeated hp.built bounds limit
  holds := by
    intro stream context failure hreads htold hfails
    obtain ⟨here, hsteps, hlast⟩ := Parser.exists_fails_of_fails_repeated hfails
    have hhere : law.Reads here := by
      clear hlast
      induction hsteps with
      | refl => exact hreads
      | tail _ hstep ih =>
          obtain ⟨output, hmatches⟩ := hstep
          exact law.reads_onward ih (hp.built.leadsTo hmatches)
    exact hp.holds hhere htold hlast

theorem ahead (hp : law.Governs p) : law.Governs p.ahead where
  built := .ahead hp.built
  holds := fun hreads htold hfails => hp.holds hreads htold (Parser.fails_ahead_iff.mp hfails)

theorem notAhead (hp : p.Built fun _ => False)
    (hhere : ∀ {stream : Stream (Value Op)}, law.Reads stream → ∀ output,
      law.Holds { expected := .unknown, actual := output, remainder := stream }) :
    law.Governs p.notAhead where
  built := .notAhead hp
  holds := by
    intro stream context failure hreads htold hfails
    obtain ⟨output, remainder, -, rfl⟩ := Parser.exists_matches_of_fails_notAhead hfails
    exact hhere hreads output

theorem deferred {find : Unit → Run Op (Parser Op)}
    (hfind : ∀ p, (find ()).ending = .done p → law.Governs p) : law.Governs (.deferred find) where
  built := .deferred fun p hp => (hfind p hp).built
  holds := by
    intro stream context failure hreads htold hfails
    obtain ⟨p, hp, hreply⟩ := Parser.deferred_ending_eq_done_iff.mp hfails
    exact (hfind p hp).holds hreads htold hreply

end Governs

variable [Operations Op]

/-- What a law asks of a part of a grammar, besides the parts below it. -/
def Permits (law : FailureLaw Op) (definitions : Definitions Op) : Grammar Op → Prop
  | .token expected => law.HoldsFor (.token expected)
  | .notToken unexpected => law.HoldsFor (.notToken unexpected)
  | .oneOf choices => law.HoldsFor (.oneOf choices)
  | .noneOf excluded => law.HoldsFor (.noneOf excluded)
  | .literal s => law.HoldsFor (.literal s)
  | .fail expected actual => law.HoldsFor (.fail expected actual)
  | .orElse g h => ∀ fuel limit, law.AllowsMerging (g.parser (definitions.resolve fuel) limit)
      (h.parser (definitions.resolve fuel) limit)
  | .alternatives gs => (gs = [] → law.HoldsFor .fail)
      ∧ ∀ before h after, gs = before ++ h :: after → before ≠ [] → ∀ fuel limit,
        law.AllowsMerging ((Grammar.alternatives before).parser (definitions.resolve fuel) limit)
          (h.parser (definitions.resolve fuel) limit)
  | .notAhead _ => ∀ {stream : Stream (Value Op)}, law.Reads stream → ∀ output,
      law.Holds { expected := .unknown, actual := output, remainder := stream }
  | .named _ name => law.Told ⟨some name⟩
  | .namedIfAbsent _ name => ∀ context, law.Told context → law.Told (context.withDefaultName name)
  | .custom _ => False
  | .pure _ | .map _ _ | .backtracking _ | .keepLeft _ _ | .keepRight _ _ | .apply _ _
  | .repeated _ _ | .ahead _ | .deferred _ | .deferredValue _ => True

open Grammar

variable {definitions : Definitions Op}

/-- A parser of permitted parts never breaks the law, if what the names in it are found
as does not. -/
theorem parser_governed {fuel limit : Nat}
    (hscope : ∀ name p, (definitions.resolve fuel name).ending = .done p → law.Governs p)
    {g : Grammar Op} (hg : g.Every (law.Permits definitions)) :
    law.Governs (g.parser (definitions.resolve fuel) limit) := by
  induction hg with
  | @intro g here below ih =>
      cases g with
      | token expected => exact ⟨.satisfying _ _ _, here⟩
      | notToken unexpected => exact ⟨.satisfying _ _ _, here⟩
      | oneOf choices => exact ⟨.satisfying _ _ _, here⟩
      | noneOf excluded => exact ⟨.satisfying _ _ _, here⟩
      | literal s => exact ⟨.literal s, here⟩
      | pure v =>
          refine ⟨.pure v, ?_⟩
          intro stream context failure _ _ hfails
          cases hfails
      | fail expected actual => exact ⟨.fail expected actual, here⟩
      | map g f => exact (ih g (by simp [children])).map f
      | orElse g h =>
          exact (ih g (by simp [children])).orElse (ih h (by simp [children])) (here fuel limit)
      | alternatives gs =>
          rw [parser, parsers_eq_map]
          refine .alternatives ?_ ?_ ?_
          · intro p hp
            obtain ⟨part, hpart, rfl⟩ := List.mem_map.mp hp
            exact ih part hpart
          · intro hnone
            exact here.1 (List.map_eq_nil_iff.mp hnone)
          · intro earlier p later hsplit hfirst
            obtain ⟨before, rest, rfl, rfl, hrest⟩ := List.map_eq_append_iff.mp hsplit
            obtain ⟨h, after, rfl, rfl, -⟩ := List.map_eq_cons_iff.mp hrest
            have hbefore : before ≠ [] := fun hnil => hfirst (hnil ▸ rfl)
            rw [← parsers_eq_map]
            exact here.2 before h after rfl hbefore fuel limit
      | backtracking g =>
          have hpart := ih g (by simp [children])
          exact ⟨.backtracking hpart.built, hpart.holds⟩
      | keepLeft g h => exact (ih g (by simp [children])).sequence (ih h (by simp [children])) _
      | keepRight g h => exact (ih g (by simp [children])).sequence (ih h (by simp [children])) _
      | apply g h => exact (ih g (by simp [children])).sequence (ih h (by simp [children])) _
      | repeated g bounds => exact (ih g (by simp [children])).repeated bounds limit
      | ahead g => exact (ih g (by simp [children])).ahead
      | notAhead g => exact .notAhead (ih g (by simp [children])).built here
      | named g name =>
          have hpart := ih g (by simp [children])
          exact ⟨.named hpart.built name, fun hreads _ hfails => hpart.holds hreads here hfails⟩
      | namedIfAbsent g name =>
          have hpart := ih g (by simp [children])
          exact ⟨.namedIfAbsent hpart.built name,
            fun hreads htold hfails => hpart.holds hreads (here _ htold) hfails⟩
      | deferred name => exact .deferred (hscope name)
      | deferredValue v =>
          change law.Governs (Parser.deferred fun _ => Run.raise (.notAParser v.typeName))
          refine .deferred ?_
          intro p hp
          cases hp
      | custom p => exact here.elim

/-- **A law that permits all parts is never broken.**  If a law permits every part of the
definitions and of a grammar, it holds of each failure of the grammar, on the streams
and in the contexts that it is made for. -/
theorem holds_of_fails (law : FailureLaw Op) (hdefs : definitions.Every (law.Permits definitions))
    {g : Grammar Op} (hg : g.Every (law.Permits definitions)) {fuel : Nat}
    {stream : Stream (Value Op)} {context : Context} {failure : Failure (Value Op)}
    (hreads : law.Reads stream) (htold : law.Told context)
    (hfails : (definitions.parser fuel g).Fails stream context failure) : law.Holds failure :=
  (parser_governed (definitions.resolve_induction parser_governed hdefs fuel) hg).holds
    hreads htold hfails

end FailureLaw

end Tokenwise
