import Tokenwise.Callable.Basic
import Tokenwise.Value.Equality

/-!
# Stock operations

Operations that are often mapped over the output of a parser: collecting
arguments, comparing, reading a number, building a dictionary, and a few more.
`Stock.constant` and `Stock.equals` work with the value that they have captured.
Each is defined for some arguments only, and outside its domain it is a fault.
-/

namespace Tokenwise

inductive Stock where
  | tuple
  | list
  | first
  | last
  /-- The captured value, whatever the arguments. -/
  | constant
  /-- Whether the argument equals the captured value. -/
  | equals
  | report (text : String)
  /-- Adds a number to a number. -/
  | add (n : Int)
  /-- The number that a text of decimal digits stands for. -/
  | number
  | length
  | reverse
  /-- The dictionary of a list or tuple of pairs. -/
  | dictionary
  /-- Nests a first operand and the pairs of operators and right operands that
  follow it, from the left. -/
  | foldLeft
  /-- The tuple of all arguments, with a signature that says something else. -/
  | declared (parameters : List Parameter)
  /-- The greatest argument, or the greatest item of the only one. -/
  | greatest
  deriving DecidableEq, Repr

namespace Stock

/-- The entries with one more, which takes the place of one with its key. -/
def insertEntry {α : Type} (entries : List (String × α)) (key : String) (v : α) :
    List (String × α) :=
  match entries with
  | [] => [(key, v)]
  | entry :: more =>
      if entry.1 = key then (key, v) :: more else entry :: insertEntry more key v

/-- The number written by one or more decimal digits. -/
def digitsValue? : List Char → Option Nat
  | [] => none
  | cs =>
      if cs.all Char.isDigit then
        some (cs.foldl (fun n c => 10 * n + (c.toNat - '0'.toNat)) 0)
      else none

def rows? {Op : Type} : Value Op → Option (List (Value Op))
  | .list vs | .tuple vs => some vs
  | _ => none

/-- The items of pairs with a text in front. -/
def entries? {Op : Type} : List (Value Op) → Option (List (String × Value Op))
  | [] => some []
  | .tuple [.text key, v] :: rows => (entries? rows).map ((key, v) :: ·)
  | _ => none

/-- Nests pairs from the left around a first operand. -/
def nest? {Op : Type} (operand : Value Op) : List (Value Op) → Option (Value Op)
  | [] => some operand
  | .tuple [op, right] :: rows => nest? (.tuple [op, operand, right]) rows
  | _ => none

/-- The first of the greatest among numbers, or among texts. -/
def greatest? {Op : Type} : List (Value Op) → Option (Value Op)
  | [] => none
  | .int n :: vs => vs.foldlM (fun (best : Value Op) v =>
      match best, v with
      | .int m, .int k => some (.int (if m < k then k else m))
      | _, _ => none) (.int n)
  | .text s :: vs => vs.foldlM (fun (best : Value Op) v =>
      match best, v with
      | .text t, .text u => some (.text (if t < u then u else t))
      | _, _ => none) (.text s)
  | _ => none

/-- What an operation makes of the captured values and the arguments, if it is
defined for them. -/
def result? : Stock → List (Value Stock) → List (Value Stock) → Option (Value Stock)
  | tuple, _, vs | declared _, _, vs => some (.tuple vs)
  | list, _, vs => some (.list vs)
  | first, _, vs => vs.head?
  | last, _, vs => vs.getLast?
  | constant, [v], _ => some v
  | equals, [v], [w] => some (.bool (w == v))
  | add n, _, [.int m] => some (.int (m + n))
  | number, _, [.text s] => (digitsValue? s.toList).map fun n => .int n
  | length, _, [.text s] => some (.int s.length)
  | length, _, [.list vs] | length, _, [.tuple vs] => some (.int vs.length)
  | reverse, _, [.list vs] => some (.list vs.reverse)
  | dictionary, _, [v] => do
      let entries ← entries? (← rows? v)
      return .dictionary (entries.foldl (fun found entry => insertEntry found entry.1 entry.2) [])
  | foldLeft, _, [operand, rows] => do nest? operand (← rows? rows)
  | greatest, _, [.text s] => greatest? (s.toList.map Value.char)
  | greatest, _, [.list vs] => greatest? vs
  | greatest, _, v :: w :: vs => greatest? (v :: w :: vs)
  | _, _, _ => none

instance : ToString Stock where
  toString
    | greatest => "<built-in function max>"
    | _ => "<fn>"

instance : Operations Stock where
  call
    | report text, _, _ => Run.raise (.reported text)
    | op, captured, arguments =>
        match op.result? captured arguments with
        | some v => pure v
        | none => Run.raise .outsideDomain
  parameters
    | declared parameters => some parameters
    | greatest => none
    | _ => some [⟨.positionalOrKeyword, false⟩]

/-- An operation with captured values, as a value.  Operations of one kind that differ in
a number, a text or a signature need marks of their own. -/
def asValue (op : Stock) (captured : List (Value Stock) := []) (mark : Nat := op.ctorIdx) :
    Value Stock :=
  .function (.operation op captured mark)

end Stock

end Tokenwise
