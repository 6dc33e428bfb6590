import Tokenwise.Callable.Stock
import Tokenwise.Grammar.Definitions

/-!
# How a parser is built

`Grammar.Every` says something of all parts of a grammar, and with it "a grammar
without repetition" or "a grammar without parsers of the user's own" is said in
one line.  Its constructor is the induction over a grammar with all the cases of
one shape: a part, and what it is directly made of (`Grammar.children`).

`Parser.Built` is the other side, among parsers: those that the matchers and the
combinators make, starting from `allowed` parsers of the user's own.  The four
one-token matchers are one case there, and so are the three ways to sequence.  A
deferred parser is built if whatever is found in its place is.

`Definitions.parser_built` joins the two.  A grammar among definitions stands for
a parser that is built, however often names are unfolded: a name at one depth is
found as a parser that was built at a smaller one.  This induction on the depth is the
same for any other statement about the parsers of grammars
(`Definitions.resolve_induction`).
-/

namespace Tokenwise

variable {Op : Type}

namespace Grammar

/-- The grammars that a grammar is directly made of. -/
def children : Grammar Op → List (Grammar Op)
  | map g _ | backtracking g | repeated g _ | ahead g | notAhead g | named g _
  | namedIfAbsent g _ => [g]
  | orElse g h | keepLeft g h | keepRight g h | apply g h => [g, h]
  | alternatives gs => gs
  | token _ | notToken _ | oneOf _ | noneOf _ | literal _ | pure _ | fail _ _ | deferred _
  | deferredValue _ | custom _ => []

/-- Every part of the grammar has the property, the grammar itself among them. -/
inductive Every (property : Grammar Op → Prop) : Grammar Op → Prop
  | intro {g : Grammar Op} (here : property g)
      (below : ∀ part ∈ g.children, Every property part) : Every property g

variable {property : Grammar Op → Prop} {g h k : Grammar Op}

theorem Every.leaf (here : property g) (hchildren : g.children = []) : g.Every property := by
  refine .intro here ?_
  simp [hchildren]

theorem Every.only (here : property g) (hchildren : g.children = [h]) (hh : h.Every property) :
    g.Every property := by
  refine .intro here ?_
  intro part hpart
  rw [hchildren] at hpart
  obtain rfl := List.mem_singleton.mp hpart
  exact hh

theorem Every.pair (here : property g) (hchildren : g.children = [h, k]) (hh : h.Every property)
    (hk : k.Every property) : g.Every property := by
  refine .intro here ?_
  intro part hpart
  rw [hchildren] at hpart
  obtain rfl | hpart := List.mem_cons.mp hpart
  · exact hh
  · obtain rfl := List.mem_singleton.mp hpart
    exact hk

theorem Every.mono {weaker : Grammar Op → Prop} (hg : g.Every property)
    (h : ∀ part, property part → weaker part) : g.Every weaker := by
  induction hg with
  | intro here below ih => exact .intro (h _ here) ih

/-- A property that no parser of the user's own has keeps them out of a grammar. -/
theorem Every.ne_custom (hg : g.Every property) (hcustom : ∀ p, ¬ property (.custom p)) :
    g.Every fun part => ∀ p, part ≠ .custom p := by
  refine hg.mono ?_
  rintro part hpart p rfl
  exact hcustom p hpart

end Grammar

/-- Every part of every definition has the property. -/
def Definitions.Every (definitions : Definitions Op) (property : Grammar Op → Prop) : Prop :=
  ∀ entry ∈ definitions.entries, entry.2.Every property

/-- The grammar that a name stands for is one of the definitions. -/
theorem Definitions.Every.of_find? {definitions : Definitions Op} {property : Grammar Op → Prop}
    (hdefs : definitions.Every property) {name : String} {g : Grammar Op}
    (hfind : definitions.find? name = some g) : g.Every property := by
  obtain ⟨before, after, hentries, -⟩ := List.lookup_eq_some_iff.mp hfind
  have hentry : (name, g) ∈ definitions.entries := by simp [hentries]
  exact hdefs _ hentry

/-- The parsers that are put together from the matchers and from `allowed` parsers
by the combinators. -/
inductive Parser.Built (allowed : Parser Op → Prop) : Parser Op → Prop
  | custom {p : Parser Op} (h : allowed p) : Built allowed p
  | satisfying (test : Value Op → Bool) (kind : Descriptor.Kind) (labels : List (Value Op)) :
      Built allowed (.satisfying test kind labels)
  | literal (s : String) : Built allowed (.literal s)
  | pure (v : Value Op) : Built allowed (.pure v)
  | fail (expected : Expected (Value Op)) (actual : Value Op) :
      Built allowed (.fail expected actual)
  | map {p : Parser Op} (hp : Built allowed p) (f : Value Op → Run Op (Value Op)) :
      Built allowed (p.map f)
  | orElse {p q : Parser Op} (hp : Built allowed p) (hq : Built allowed q) :
      Built allowed (p.orElse q)
  | alternatives {ps : List (Parser Op)} (hps : ∀ p ∈ ps, Built allowed p) :
      Built allowed (.alternatives ps)
  | backtracking {p : Parser Op} (hp : Built allowed p) : Built allowed p.backtracking
  | sequence {p q : Parser Op} (hp : Built allowed p) (hq : Built allowed q)
      (join : Value Op → Value Op → Run Op (Value Op)) : Built allowed (p.sequence q join)
  | repeated {p : Parser Op} (hp : Built allowed p) (bounds : Bounds) (limit : Nat) :
      Built allowed (p.repeated bounds limit)
  | ahead {p : Parser Op} (hp : Built allowed p) : Built allowed p.ahead
  | notAhead {p : Parser Op} (hp : Built allowed p) : Built allowed p.notAhead
  | named {p : Parser Op} (hp : Built allowed p) (name : String) : Built allowed (p.named name)
  | namedIfAbsent {p : Parser Op} (hp : Built allowed p) (name : String) :
      Built allowed (p.namedIfAbsent name)
  | deferred {find : Unit → Run Op (Parser Op)}
      (hfind : ∀ p, (find ()).ending = .done p → Built allowed p) :
      Built allowed (.deferred find)

/-- Brackets, each of them closed, one within another: a definition that refers to
itself. -/
def Definitions.brackets : Definitions Stock where
  entries :=
    [("brackets", .orElse
      (.keepRight (.token (.char '(')) (.keepLeft (.deferred "brackets") (.token (.char ')'))))
      (.pure .nothing))]

/-- No part of the definition of brackets is a parser of the user's own. -/
theorem Definitions.every_brackets {property : Grammar Stock → Prop}
    (h : ∀ part, (∀ p, part ≠ .custom p) → property part) : brackets.Every property := by
  intro entry hentry
  obtain rfl := List.mem_singleton.mp hentry
  have hdeferred : (Grammar.deferred "brackets").Every property := .leaf (h _ nofun) rfl
  have hclosed : (Grammar.keepLeft (.deferred "brackets") (.token (.char ')'))).Every property :=
    .pair (h _ nofun) rfl hdeferred (.leaf (h _ nofun) rfl)
  refine .pair (h _ nofun) rfl ?_ (.leaf (h _ nofun) rfl)
  exact .pair (h _ nofun) rfl (.leaf (h _ nofun) rfl) hclosed

variable [Operations Op] {allowed : Parser Op → Prop}

/-- A grammar stands for a parser that is built, if the names in it do. -/
theorem Grammar.parser_built {scope : String → Run Op (Parser Op)} {limit : Nat}
    (hscope : ∀ name p, (scope name).ending = .done p → p.Built allowed) {g : Grammar Op}
    (hg : g.Every fun part => ∀ p, part = .custom p → allowed p) :
    (g.parser scope limit).Built allowed := by
  induction hg with
  | @intro g here below ih =>
      cases g with
      | token expected => exact .satisfying _ _ _
      | notToken unexpected => exact .satisfying _ _ _
      | oneOf choices => exact .satisfying _ _ _
      | noneOf excluded => exact .satisfying _ _ _
      | literal s => exact .literal s
      | pure v => exact .pure v
      | fail expected actual => exact .fail expected actual
      | map g f => exact .map (ih g (by simp [children])) f
      | orElse g h => exact .orElse (ih g (by simp [children])) (ih h (by simp [children]))
      | alternatives gs =>
          refine .alternatives ?_
          intro p hp
          rw [parsers_eq_map] at hp
          obtain ⟨part, hpart, rfl⟩ := List.mem_map.mp hp
          exact ih part hpart
      | backtracking g => exact .backtracking (ih g (by simp [children]))
      | keepLeft g h =>
          exact .sequence (ih g (by simp [children])) (ih h (by simp [children])) _
      | keepRight g h =>
          exact .sequence (ih g (by simp [children])) (ih h (by simp [children])) _
      | apply g h =>
          exact .sequence (ih g (by simp [children])) (ih h (by simp [children])) _
      | repeated g bounds => exact .repeated (ih g (by simp [children])) bounds limit
      | ahead g => exact .ahead (ih g (by simp [children]))
      | notAhead g => exact .notAhead (ih g (by simp [children]))
      | named g name => exact .named (ih g (by simp [children])) name
      | namedIfAbsent g name => exact .namedIfAbsent (ih g (by simp [children])) name
      | deferred name => exact .deferred (hscope name)
      | deferredValue v =>
          change Parser.Built allowed (Parser.deferred fun _ => Run.raise (.notAParser v.typeName))
          refine .deferred ?_
          intro p hp
          cases hp
      | custom p => exact .custom (here p rfl)

/-- What is said of the parser of every grammar among the definitions, as long as it is true
of what the names in it are found as, is true of what a name is found as at any depth. -/
theorem Definitions.resolve_induction {definitions : Definitions Op}
    {property : Grammar Op → Prop} {holds : Parser Op → Prop}
    (hstep : ∀ {fuel limit : Nat},
      (∀ name p, (definitions.resolve fuel name).ending = .done p → holds p) →
        ∀ {g : Grammar Op}, g.Every property → holds (g.parser (definitions.resolve fuel) limit))
    (hdefs : definitions.Every property) (fuel : Nat) :
    ∀ name p, (definitions.resolve fuel name).ending = .done p → holds p := by
  induction fuel with
  | zero => exact fun _ _ h => nomatch h
  | succ fuel ih =>
      intro name p hp
      rw [resolve] at hp
      cases hfind : definitions.find? name with
      | none => simp [hfind, Run.raise] at hp
      | some g =>
          rw [hfind] at hp
          cases hp
          exact hstep ih (hdefs.of_find? hfind)

/-- **A grammar among definitions stands for a parser that is built** from the
matchers and the parsers of the user's own that stand in it or in a definition. -/
theorem Definitions.parser_built {definitions : Definitions Op}
    (hdefs : definitions.Every fun part => ∀ p, part = .custom p → allowed p) {g : Grammar Op}
    (hg : g.Every fun part => ∀ p, part = .custom p → allowed p) (fuel : Nat) :
    (definitions.parser fuel g).Built allowed :=
  Grammar.parser_built (definitions.resolve_induction Grammar.parser_built hdefs fuel) hg

end Tokenwise
