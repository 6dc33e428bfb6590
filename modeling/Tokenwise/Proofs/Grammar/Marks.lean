import Tokenwise.Proofs.Grammar.Built

/-!
# Marks for backtracking in a grammar

A choice asks of a parser whether it is marked, and the grammar can tell: the parser
that a grammar stands for is marked when `backtracking` is the last step in which the
grammar was put together (`Grammar.parser_backtracks`).

`Grammar.withoutMarks` takes the marks off everywhere in a grammar, and
`Definitions.withoutMarks` in all definitions.  Nothing else about a grammar changes:
it has the same parts, each without its marks, and the same names.
-/

namespace Tokenwise

variable {Op : Type}

namespace Grammar

/-- Whether a grammar stands for a parser that a choice may go on after. -/
def isMarked : Grammar Op → Bool
  | backtracking _ => true
  | custom p => p.backtracks
  | _ => false

theorem parser_backtracks [Operations Op] (scope : String → Run Op (Parser Op)) (limit : Nat)
    (g : Grammar Op) : (g.parser scope limit).backtracks = g.isMarked := by
  cases g <;> rfl

mutual

/-- The grammar with no part of it marked. -/
def withoutMarks : Grammar Op → Grammar Op
  | backtracking g => g.withoutMarks
  | map g f => map g.withoutMarks f
  | orElse g h => orElse g.withoutMarks h.withoutMarks
  | alternatives gs => alternatives (allWithoutMarks gs)
  | keepLeft g h => keepLeft g.withoutMarks h.withoutMarks
  | keepRight g h => keepRight g.withoutMarks h.withoutMarks
  | apply g h => apply g.withoutMarks h.withoutMarks
  | repeated g bounds => repeated g.withoutMarks bounds
  | ahead g => ahead g.withoutMarks
  | notAhead g => notAhead g.withoutMarks
  | named g name => named g.withoutMarks name
  | namedIfAbsent g name => namedIfAbsent g.withoutMarks name
  | g => g
termination_by structural g => g

/-- Grammars with no part of them marked. -/
def allWithoutMarks : List (Grammar Op) → List (Grammar Op)
  | [] => []
  | g :: gs => g.withoutMarks :: allWithoutMarks gs
termination_by structural gs => gs

end

theorem allWithoutMarks_eq_map (gs : List (Grammar Op)) :
    allWithoutMarks gs = gs.map withoutMarks := by
  induction gs with
  | nil => rfl
  | cons g gs ih => rw [allWithoutMarks, ih, List.map_cons]

/-- A grammar that is not just a mark is made of the same parts without their marks. -/
theorem children_withoutMarks {g : Grammar Op} (h : ∀ part, g ≠ .backtracking part) :
    g.withoutMarks.children = g.children.map withoutMarks := by
  cases g with
  | backtracking g => exact absurd rfl (h g)
  | alternatives gs => exact allWithoutMarks_eq_map gs
  | _ => rfl

variable {g : Grammar Op}

/-- Without marks, a grammar with no parser of the user's own is not marked. -/
theorem isMarked_withoutMarks (hg : g.Every fun part => ∀ p, part ≠ .custom p) :
    g.withoutMarks.isMarked = false := by
  induction hg with
  | @intro g here below ih =>
      cases g with
      | backtracking g => exact ih g (by simp [children])
      | custom p => exact absurd rfl (here p)
      | _ => rfl

theorem every_withoutMarks (hg : g.Every fun part => ∀ p, part ≠ .custom p) :
    g.withoutMarks.Every fun part => ∀ p, part ≠ .custom p := by
  induction hg with
  | @intro g here below ih =>
      by_cases hmark : ∃ part, g = .backtracking part
      · obtain ⟨part, rfl⟩ := hmark
        exact ih part (by simp [children])
      · have hchildren := children_withoutMarks fun part heq => hmark ⟨part, heq⟩
        refine .intro ?_ ?_
        · cases g with
          | backtracking part => exact absurd ⟨part, rfl⟩ hmark
          | custom p => exact absurd rfl (here p)
          | _ =>
              intro p heq
              cases heq
        · intro part hpart
          rw [hchildren] at hpart
          obtain ⟨original, horiginal, rfl⟩ := List.mem_map.mp hpart
          exact ih original horiginal

end Grammar

namespace Definitions

/-- The definitions with no part of them marked. -/
def withoutMarks (definitions : Definitions Op) : Definitions Op :=
  ⟨definitions.entries.map fun entry => (entry.1, entry.2.withoutMarks)⟩

theorem find?_withoutMarks (definitions : Definitions Op) (name : String) :
    definitions.withoutMarks.find? name = (definitions.find? name).map Grammar.withoutMarks := by
  simp only [find?, withoutMarks]
  induction definitions.entries with
  | nil => rfl
  | cons entry entries ih =>
      rw [List.map_cons, List.lookup_cons, List.lookup_cons, ih]
      cases name == entry.1 <;> rfl

theorem every_withoutMarks {definitions : Definitions Op}
    (hdefs : definitions.Every fun part => ∀ p, part ≠ .custom p) :
    definitions.withoutMarks.Every fun part => ∀ p, part ≠ .custom p := by
  intro entry hentry
  obtain ⟨original, horiginal, rfl⟩ := List.mem_map.mp hentry
  exact Grammar.every_withoutMarks (hdefs original horiginal)

end Definitions

end Tokenwise
