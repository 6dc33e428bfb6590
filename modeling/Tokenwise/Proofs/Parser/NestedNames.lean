import Tokenwise.Parser.Naming

/-!
# Which of nested names wins

A parser can be given names any number of times, each time around the parser named before.  The
names meet in the context: the outermost naming changes it first, and the parser inside is run
with what the innermost one leaves of it (`Parser.run_foldl_namedBy`).

A name that is given in any case replaces what came from outside, so of these the innermost wins.
A default gives way to what came from outside, be it a name of the context or another default, so
of these the outermost wins.  A name given in any case also replaces every default, whichever of
them is inside, for a default leaves it alone (`Naming.name_foldr_change`).
-/

namespace Tokenwise

/-- A way to name the next token. -/
inductive Naming where
  /-- In place of a name that it has. -/
  | always (label : String)
  /-- Unless it has a name. -/
  | ifAbsent (label : String)

namespace Naming

/-- The label of a name that is given in any case. -/
def forced : Naming → Option String
  | always label => some label
  | ifAbsent _ => none

/-- The label of a default. -/
def fallback : Naming → Option String
  | always _ => none
  | ifAbsent label => some label

/-- What a naming makes of the context. -/
def change : Naming → Context → Context
  | always label, context => context.withName label
  | ifAbsent label, context => context.withDefaultName label

/-- The name that namings, the innermost first, leave in the context: that of the innermost one
that is given in any case, or else the one that was there, or else the outermost default. -/
theorem name_foldr_change (chain : List Naming) (context : Context) :
    (chain.foldr change context).name
      = (chain.findSome? forced).or (context.name.or (chain.reverse.findSome? fallback)) := by
  induction chain with
  | nil => simp
  | cons innermost chain ih =>
      rw [List.foldr_cons, List.reverse_cons, List.findSome?_append]
      cases innermost with
      | always label => rfl
      | ifAbsent label =>
          have hdefault (outer : Context) :
              (change (ifAbsent label) outer).name = outer.name.or (some label) := by
            cases h : outer.name <;> simp [change, Context.withDefaultName, h]
          rw [hdefault, ih]
          simp [List.findSome?_cons, forced, fallback]

theorem exists_name_foldr_change (innermost : Naming) (others : List Naming) (context : Context) :
    ∃ label, (change innermost (others.foldr change context)).name = some label := by
  cases innermost with
  | always label => exact ⟨label, rfl⟩
  | ifAbsent label => exact ⟨_, rfl⟩

/-- The empty text is a name like any other. -/
example : [ifAbsent "digit", always "", ifAbsent "number", always "sum"].foldr change {}
    = ⟨some ""⟩ := rfl

end Naming

namespace Parser

variable {Op : Type}

/-- Names the next token in the given way. -/
def namedBy (p : Parser Op) : Naming → Parser Op
  | .always label => p.named label
  | .ifAbsent label => p.namedIfAbsent label

theorem run_namedBy (p : Parser Op) (naming : Naming) (stream : Stream (Value Op))
    (context : Context) :
    (p.namedBy naming).run stream context = p.run stream (naming.change context) := by
  cases naming <;> rfl

/-- The outermost of several namings changes the context first. -/
theorem run_foldl_namedBy (p : Parser Op) (chain : List Naming) (stream : Stream (Value Op))
    (context : Context) :
    (chain.foldl namedBy p).run stream context
      = p.run stream (chain.foldr Naming.change context) := by
  induction chain generalizing p with
  | nil => rfl
  | cons innermost chain ih => rw [List.foldl_cons, ih, run_namedBy, List.foldr_cons]

/-- **Which of nested names wins.**  A parser that has been named at least once, in any ways and
with any labels, does on every stream and in every context what it does without these names in a
context with one label: that of the innermost name that is given in any case, if there is one, or
else the name in the context, if there is one, or else that of the outermost default. -/
theorem innermost_name_wins (p : Parser Op) (innermost : Naming) (others : List Naming)
    (stream : Stream (Value Op)) (context : Context) :
    let chain := innermost :: others
    ∃ label,
      (chain.findSome? Naming.forced).or
          (context.name.or (chain.reverse.findSome? Naming.fallback)) = some label
        ∧ (chain.foldl namedBy p).run stream context = p.run stream ⟨some label⟩ := by
  intro chain
  obtain ⟨label, hlabel⟩ := Naming.exists_name_foldr_change innermost others context
  have hcontext : chain.foldr Naming.change context = ⟨some label⟩ := congrArg Context.mk hlabel
  refine ⟨label, ?_, ?_⟩
  · rw [← Naming.name_foldr_change, hcontext]
  · rw [run_foldl_namedBy, hcontext]

end Parser

end Tokenwise
