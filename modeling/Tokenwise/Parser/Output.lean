import Tokenwise.Parser.Basic

/-!
# Shaping the output

Functions that are often mapped over an output which is a list: joining it to a
text, flattening it by one level, and turning it into a function that appends
to it.  The functions go through any value that has items, not lists only.
-/

namespace Tokenwise

namespace Value

variable {Op : Type}

def joined [ToString Op] (separator : String) (v : Value Op) : Except Fault (Value Op) := do
  let words ← (← v.items).mapM plain
  return text (String.intercalate separator words)

theorem mapM_plain_chars [ToString Op] (cs : List Char) :
    (cs.map (char : Char → Value Op)).mapM plain = .ok (cs.map String.singleton) := by
  induction cs with
  | nil => rfl
  | cons c cs ih =>
      rw [List.map_cons, List.mapM_cons, ih]
      rfl

theorem intercalate_singletons (cs : List Char) :
    String.intercalate "" (cs.map String.singleton) = String.ofList cs := by
  induction cs with
  | nil => rfl
  | cons c cs ih =>
      cases cs with
      | nil => exact String.intercalate_singleton
      | cons d ds =>
          rw [List.map_cons, List.map_cons, String.intercalate_cons_cons, ← List.map_cons, ih,
            String.append_empty]
          exact String.ofList_cons.symm

/-- Characters are joined to the text of them. -/
theorem joined_chars [ToString Op] (cs : List Char) :
    (list (cs.map char) : Value Op).joined "" = .ok (text (String.ofList cs)) := by
  have hwords : (list (cs.map char) : Value Op).joined ""
      = (cs.map (char : Char → Value Op)).mapM plain >>= fun words =>
          .ok (text (String.intercalate "" words)) := rfl
  rw [hwords, mapM_plain_chars, ← intercalate_singletons]
  rfl

def flattened (v : Value Op) : Except Fault (Value Op) := do
  let parts ← (← v.items).mapM items
  return list parts.flatten

end Value

namespace Parser

variable {Op : Type}

def join [ToString Op] (p : Parser Op) (separator : String := "") : Parser Op :=
  p.map fun output => output.joined separator

/-- Flattens the output by one level. -/
def flatten (p : Parser Op) : Parser Op :=
  p.map fun output => output.flattened

/-- Turns the output into a function that appends its argument to it. -/
def extend (p : Parser Op) : Parser Op :=
  p.map fun output => return .function (.appendTo output)

/-- Turns the output into a function that appends the items of its argument. -/
def concat (p : Parser Op) : Parser Op :=
  p.map fun output => return .function (.concatTo output)

end Parser

end Tokenwise
