import Tokenwise.Parser.CharClass
import Tokenwise.Parser.Choice
import Tokenwise.Parser.Deferred
import Tokenwise.Parser.Lookahead
import Tokenwise.Parser.Matcher
import Tokenwise.Parser.Output
import Tokenwise.Parser.Repetition
import Tokenwise.Parser.Sequence

/-!
# Grammars

A **grammar** is the written form of a parser: which matchers it is built from,
and by which combinators.  Parsers are functions and cannot be looked into; a
grammar can, so that "every parser that is built without names" is a statement
by induction.  Any parser at all is a grammar as well, as a `custom` one.

Recursion goes by name.  `Grammar.deferred` refers to a definition that may
stand anywhere, also around the reference itself.

A grammar stands for a parser (`Grammar.parser`) once it is known what comes of
looking for a name, and how many runs a repetition without an upper bound may
take.
-/

namespace Tokenwise

/-- How a parser is built. -/
inductive Grammar (Op : Type) where
  | token (expected : Value Op)
  | notToken (unexpected : Value Op)
  | oneOf (choices : List (Value Op))
  | noneOf (excluded : List (Value Op))
  | literal (s : String)
  | pure (v : Value Op)
  | fail (expected : Expected (Value Op)) (actual : Value Op)
  | map (g : Grammar Op) (f : Value Op → Run Op (Value Op))
  | orElse (g h : Grammar Op)
  | alternatives (gs : List (Grammar Op))
  | backtracking (g : Grammar Op)
  | keepLeft (g h : Grammar Op)
  | keepRight (g h : Grammar Op)
  | apply (g h : Grammar Op)
  | repeated (g : Grammar Op) (bounds : Bounds)
  | ahead (g : Grammar Op)
  | notAhead (g : Grammar Op)
  | named (g : Grammar Op) (name : String)
  | namedIfAbsent (g : Grammar Op) (name : String)
  | deferred (name : String)
  | deferredValue (v : Value Op)
  | custom (p : Parser Op)

namespace Grammar

variable {Op : Type}

section Parser

variable [Operations Op]

mutual

/-- The parser that a grammar stands for, where `scope` looks for what a name
stands for and `limit` is for repetitions without an upper bound. -/
def parser (scope : String → Run Op (Parser Op)) (limit : Nat) : Grammar Op → Parser Op
  | token expected => .token expected
  | notToken unexpected => .notToken unexpected
  | oneOf choices => .oneOf choices
  | noneOf excluded => .noneOf excluded
  | literal s => .literal s
  | pure v => .pure v
  | fail expected actual => .fail expected actual
  | map g f => (g.parser scope limit).map f
  | orElse g h => (g.parser scope limit).orElse (h.parser scope limit)
  | alternatives gs => .alternatives (parsers scope limit gs)
  | backtracking g => (g.parser scope limit).backtracking
  | keepLeft g h => (g.parser scope limit).keepLeft (h.parser scope limit)
  | keepRight g h => (g.parser scope limit).keepRight (h.parser scope limit)
  | apply g h => (g.parser scope limit).apply (h.parser scope limit)
  | repeated g bounds => (g.parser scope limit).repeated bounds limit
  | ahead g => (g.parser scope limit).ahead
  | notAhead g => (g.parser scope limit).notAhead
  | named g name => (g.parser scope limit).named name
  | namedIfAbsent g name => (g.parser scope limit).namedIfAbsent name
  | deferred name => .deferred fun _ => scope name
  | deferredValue v => .deferredValue v
  | custom p => p
termination_by structural g => g

/-- The parsers that grammars stand for. -/
def parsers (scope : String → Run Op (Parser Op)) (limit : Nat) : List (Grammar Op) → List (Parser Op)
  | [] => []
  | g :: gs => g.parser scope limit :: parsers scope limit gs
termination_by structural gs => gs

end

end Parser

section Derived

/-- Succeeds with nothing where `g` does not match and consumes nothing. -/
def optional (g : Grammar Op) : Grammar Op :=
  (g.map fun output => return .list [output]).orElse (pure (.list []))

/-- Joins the items of the output to a text. -/
def join [ToString Op] (g : Grammar Op) (separator : String := "") : Grammar Op :=
  g.map fun output => output.joined separator

/-- Flattens the output by one level. -/
def flatten (g : Grammar Op) : Grammar Op :=
  g.map fun output => output.flattened

/-- Turns the output into a function that appends its argument to it. -/
def extend (g : Grammar Op) : Grammar Op :=
  g.map fun output => return .function (.appendTo output)

/-- Turns the output into a function that appends the items of its argument. -/
def concat (g : Grammar Op) : Grammar Op :=
  g.map fun output => return .function (.concatTo output)

/-- Applies the grammars in sequence and calls `f` with their outputs. -/
def combine [Operations Op] (f : Value Op) : List (Grammar Op) → Except Fault (Grammar Op)
  | [] => .error .noParsers
  | g :: gs => do
      let collect ← curry f (some (gs.length + 1))
      return gs.foldl apply (g.map fun output => collect.call [output])

/-- An ASCII letter. -/
def letter : Grammar Op :=
  ((oneOf (Parser.tokensOf CharClass.lowercase)).orElse
    (oneOf (Parser.tokensOf CharClass.uppercase))).namedIfAbsent "letter"

/-- A decimal digit. -/
def digit : Grammar Op :=
  (oneOf (Parser.tokensOf CharClass.digits)).namedIfAbsent "digit"

/-- A space, a tab, a carriage return or a line break. -/
def whitespace : Grammar Op :=
  (oneOf (Parser.tokensOf CharClass.whitespace)).namedIfAbsent "whitespace"

/-- Any amount of white space. -/
def whitespaces : Grammar Op := whitespace.repeated .any

/-- Any token. -/
def anyToken : Grammar Op := noneOf []

end Derived

/-! What is derived here stands for the parser of the same name. -/

section Agreement

variable [Operations Op] (scope : String → Run Op (Parser Op)) (limit : Nat)

@[simp] theorem parser_optional (g : Grammar Op) :
    g.optional.parser scope limit = (g.parser scope limit).optional := rfl

@[simp] theorem parser_join (g : Grammar Op) (separator : String) :
    (g.join separator).parser scope limit = (g.parser scope limit).join separator := rfl

@[simp] theorem parser_flatten (g : Grammar Op) :
    g.flatten.parser scope limit = (g.parser scope limit).flatten := rfl

@[simp] theorem parser_extend (g : Grammar Op) :
    g.extend.parser scope limit = (g.parser scope limit).extend := rfl

@[simp] theorem parser_concat (g : Grammar Op) :
    g.concat.parser scope limit = (g.parser scope limit).concat := rfl

@[simp] theorem parser_letter :
    (letter : Grammar Op).parser scope limit = Parser.letter := rfl

@[simp] theorem parser_digit :
    (digit : Grammar Op).parser scope limit = Parser.digit := rfl

@[simp] theorem parser_whitespace :
    (whitespace : Grammar Op).parser scope limit = Parser.whitespace := rfl

@[simp] theorem parser_whitespaces :
    (whitespaces : Grammar Op).parser scope limit = Parser.whitespaces limit := rfl

@[simp] theorem parser_anyToken :
    (anyToken : Grammar Op).parser scope limit = Parser.anyToken := rfl

/-- The parsers of a list of grammars, one by one. -/
theorem parsers_eq_map (gs : List (Grammar Op)) :
    parsers scope limit gs = gs.map (parser scope limit) := by
  induction gs with
  | nil => rfl
  | cons g gs ih => simp [parsers, ih]

/-- A chain of calls stands for the chain of the parsers. -/
theorem parser_foldl_apply (gs : List (Grammar Op)) (g : Grammar Op) :
    (gs.foldl apply g).parser scope limit
      = (gs.map (parser scope limit)).foldl Parser.apply (g.parser scope limit) := by
  induction gs generalizing g with
  | nil => rfl
  | cons h gs ih => exact ih (g.apply h)

/-- A combination of grammars is possible when that of their parsers is, and
stands for it. -/
theorem parser_combine (f : Value Op) (gs : List (Grammar Op)) :
    (combine f gs).map (parser scope limit)
      = Parser.combine f (gs.map (parser scope limit)) := by
  cases gs with
  | nil => rfl
  | cons g gs =>
      simp only [combine, Parser.combine, List.map_cons, List.length_map]
      cases curry f (some (gs.length + 1)) with
      | error fault => rfl
      | ok collect =>
          exact congrArg Except.ok (parser_foldl_apply scope limit gs _)

end Agreement

end Grammar

end Tokenwise
