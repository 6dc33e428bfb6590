import Tokenwise.Callable.Stock
import Tokenwise.Grammar.Definitions
import Tokenwise.Proofs.Parser.Pieces

/-!
# Nested brackets, counted

The parser of `Grammar.nested` reads an opening bracket, what it would read itself and a
closing bracket, and counts one more than it has counted inside.  Where no bracket opens it
counts none and consumes nothing.  It refers to itself by name, so each level of nesting
resolves the name once more, and as much fuel as there are characters is always enough.

A text is recognised if and only if some number of opening brackets is followed by just as
many closing ones (`Definitions.nested_recognised`).  Two inductions on the number of opening
brackets show it.  If enough closing brackets follow, the parser takes just these and leaves
the rest (`takes_nested`).  Otherwise it refuses the input, and not where it begins, so that
the choice commits on every level (`refuses_nested`).
-/

namespace Tokenwise

/-- Counts how deep brackets are nested. -/
def Grammar.nested : Grammar Stock :=
  .orElse
    (.map (.keepLeft (.keepRight (.token (.char '(')) (.deferred "nested")) (.token (.char ')')))
      fun depth => (Stock.add 1).asValue.call [depth])
    (.pure (.int 0))

/-- The one definition that nested brackets refer to. -/
def Definitions.nesting : Definitions Stock where
  entries := [("nested", .nested)]

/-- So many opening brackets, and as many closing ones. -/
def nest (n : Nat) : List Char := List.replicate n '(' ++ List.replicate n ')'

theorem nest_succ (n : Nat) : nest (n + 1) = ['('] ++ nest n ++ [')'] := by
  rw [nest, nest, List.replicate_succ, List.replicate_succ', List.append_assoc, List.append_assoc]
  rfl

/-- A text begins with a number of opening brackets that no further one follows. -/
theorem exists_opening_brackets (chars : List Char) :
    ∃ n tail, chars = List.replicate n '(' ++ tail ∧ tail.head? ≠ some '(' := by
  induction chars with
  | nil => exact ⟨0, [], rfl, nofun⟩
  | cons c chars ih =>
      by_cases hopens : c = '('
      · obtain ⟨n, tail, hchars, htail⟩ := ih
        exact ⟨n + 1, tail, by rw [hopens, hchars]; rfl, htail⟩
      · exact ⟨0, c :: chars, rfl, fun h => hopens (Option.some.inj h)⟩

section Levels

open Definitions

variable {depth : Nat}

/-- Nested brackets are taken, whatever follows.  If there are none, no bracket may open. -/
theorem takes_nested {n : Nat} (hdepth : n ≤ depth) (limit : Nat) {after : List Char}
    (hafter : n = 0 → after.head? ≠ some '(') :
    (Grammar.nested.parser (nesting.resolve depth) limit).Takes ((nest n).map .char)
      (after.map .char) (.int n) := by
  induction n generalizing depth limit after with
  | zero =>
      have hopening : (Parser.token (.char '(' : Value Stock)).Refuses (after.map .char) 0 :=
        Parser.refuses_char (hafter rfl)
      exact (((hopening.keepRight _).keepLeft _).map _).orElse_takes (Parser.takes_pure _ _)
  | succ n ih =>
      obtain ⟨depth, rfl⟩ : ∃ d, depth = d + 1 := ⟨depth - 1, by omega⟩
      have hinside : (Grammar.nested.parser (nesting.resolve depth) (depth + 1)).Takes
          ((nest n).map .char) ((')' :: after).map .char) (.int n) :=
        ih (by omega) (depth + 1) fun _ => by simp
      have hdeferred : (Parser.deferred fun _ => nesting.resolve (depth + 1) "nested").Takes
          ((nest n).map .char) ((')' :: after).map .char) (.int n) := hinside.deferred rfl
      have hclosed := ((Parser.takes_token (.char '(') _).keepRight hdeferred).keepLeft
        (Parser.takes_token (.char ')') (after.map .char))
      rw [nest_succ, List.map_append, List.map_append]
      exact (hclosed.map rfl).orElse _

/-- Brackets that are not closed again are refused, and not where they begin. -/
theorem refuses_nested {n : Nat} (hdepth : n ≤ depth) (limit : Nat) {tail : List Char}
    (htail : tail.head? ≠ some '(') (hclosing : ¬ List.replicate n ')' <+: tail) :
    ∃ offset, 0 < offset ∧ (Grammar.nested.parser (nesting.resolve depth) limit).Refuses
      ((List.replicate n '(' ++ tail).map .char) offset := by
  induction n generalizing depth limit with
  | zero => exact absurd List.nil_prefix hclosing
  | succ n ih =>
      obtain ⟨depth, rfl⟩ : ∃ d, depth = d + 1 := ⟨depth - 1, by omega⟩
      have hdepth : n ≤ depth := by omega
      let inside := Parser.deferred fun _ => nesting.resolve (depth + 1) "nested"
      -- with the bracket of this level, either the levels inside go wrong or this one does
      have hlevel : ∃ offset, 0 < offset ∧
          (((Parser.token (.char '(')).keepRight inside).keepLeft (.token (.char ')'))).Refuses
            ([.char '('] ++ (List.replicate n '(' ++ tail).map .char) offset := by
        by_cases hinside : List.replicate n ')' <+: tail
        · obtain ⟨after, rfl⟩ := hinside
          have htaken : inside.Takes ((nest n).map .char) (after.map .char) (.int n) :=
            (takes_nested hdepth (depth + 1) fun hn => by rwa [hn] at htail).deferred rfl
          have hopen : after.head? ≠ some ')' := by
            intro hcloses
            obtain ⟨more, rfl⟩ := List.head?_eq_some_iff.mp hcloses
            exact hclosing ⟨more, by rw [List.replicate_succ', List.append_assoc]; rfl⟩
          have hrefused := ((Parser.takes_token (.char '(') _).keepRight htaken).keepLeft_refuses
            (Parser.refuses_char hopen)
          rw [List.append_assoc, ← List.map_append, nest, List.append_assoc] at hrefused
          exact ⟨_, by simp, hrefused⟩
        · obtain ⟨offset, -, hdeeper⟩ := ih hdepth (depth + 1) hinside
          have hrefuses : inside.Refuses ((List.replicate n '(' ++ tail).map .char) offset :=
            hdeeper.deferred rfl
          have hrefused := (Parser.takes_token (.char '(') _).keepRight_refuses hrefuses
          exact ⟨_, by rw [List.length_singleton]; omega, hrefused.keepLeft _⟩
      obtain ⟨offset, hoffset, hrefused⟩ := hlevel
      exact ⟨offset, hoffset, (hrefused.map _).orElse rfl hoffset _⟩

end Levels

namespace Definitions

theorem parse_nest {n fuel : Nat} (hfuel : n ≤ fuel) :
    ((nesting.parser fuel .nested).parse (.whole (.text (nest n)))).ending
      = .done (.output (.int n)) := by
  have htaken : (nesting.parser fuel .nested).Takes ((nest n).map .char)
      (([] : List Char).map .char) (.int n) := takes_nested hfuel fuel fun _ => nofun
  exact htaken.parse rfl

theorem parse_of_ne_nest {chars : List Char} {fuel : Nat} (hfuel : chars.length ≤ fuel)
    (hother : ∀ n, chars ≠ nest n) : ∃ failure,
      ((nesting.parser fuel .nested).parse (.whole (.text chars))).ending
        = .done (.failure failure) := by
  obtain ⟨n, tail, rfl, htail⟩ := exists_opening_brackets chars
  have hdepth : n ≤ fuel := by
    rw [List.length_append, List.length_replicate] at hfuel
    omega
  by_cases hclosing : List.replicate n ')' <+: tail
  · -- all brackets are closed, so that something must be left
    obtain ⟨after, rfl⟩ := hclosing
    rw [← List.append_assoc, ← nest] at hother ⊢
    have htaken : (nesting.parser fuel .nested).Takes ((nest n).map .char) (after.map .char)
        (.int n) := takes_nested hdepth fuel fun hn => by rwa [hn] at htail
    have hafter : after ≠ [] := by
      intro hnothing
      exact hother n (by rw [hnothing, List.append_nil])
    have hleft : after.map (Value.char : Char → Value Stock) ≠ [] :=
      fun h => hafter (List.map_eq_nil_iff.mp h)
    exact htaken.parse_of_rest hleft List.map_append
  · obtain ⟨offset, -, hrefuses⟩ := refuses_nested hdepth fuel htail hclosing
    exact hrefuses.parse rfl

/-- **Nested brackets are recognised exactly.**  A number of opening brackets that just as
many closing ones follow is parsed to this number, and any other text fails. -/
theorem nested_recognised {chars : List Char} {fuel : Nat} (hfuel : chars.length ≤ fuel) :
    (∀ n, chars = nest n →
      ((nesting.parser fuel .nested).parse (.whole (.text chars))).ending
        = .done (.output (.int n))) ∧
    ((∀ n, chars ≠ nest n) → ∃ failure,
      ((nesting.parser fuel .nested).parse (.whole (.text chars))).ending
        = .done (.failure failure)) := by
  refine ⟨?_, parse_of_ne_nest hfuel⟩
  intro n hchars
  have hdepth : n ≤ fuel := by
    rw [hchars, nest, List.length_append, List.length_replicate] at hfuel
    omega
  rw [hchars]
  exact parse_nest hdepth

theorem two_levels_and_unclosed_bracket :
    ("(())".toList.length ≤ 4 ∧ "(())".toList = nest 2 ∧
      ((nesting.parser 4 .nested).parse (.whole (.text "(())".toList))).ending
        = .done (.output (.int 2))) ∧
    ("(()".toList.length ≤ 3 ∧ (∀ n, "(()".toList ≠ nest n) ∧ ∃ failure,
      ((nesting.parser 3 .nested).parse (.whole (.text "(()".toList))).ending
        = .done (.failure failure)) := by
  have hother : ∀ n, "(()".toList ≠ nest n := by
    intro n hchars
    have hlength : 3 = n + n := by simpa [nest] using congrArg List.length hchars
    omega
  exact ⟨⟨by decide, by decide, (nested_recognised (by decide)).1 2 (by decide)⟩,
    by decide, hother, (nested_recognised (by decide)).2 hother⟩

end Definitions

end Tokenwise
