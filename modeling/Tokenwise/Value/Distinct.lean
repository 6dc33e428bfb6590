import Tokenwise.Value.HashKey

/-!
# Distinct items, and descriptors made of them

`distinct` keeps the first of equal items, in order.  Items with a hash key
are looked up by it among the earlier items that have one; the others are
compared with all items kept so far.

Descriptors are built from distinct items (`Descriptor.ofItems`), and merging
two of them lists the items of both.
-/

namespace Tokenwise

variable {Op : Type}

/-- The distinct ones among `vs`, when the items of `filed` (with their keys)
and of `kept` came before them. -/
def distinctAfter (filed : List (HashKey × Value Op)) (kept : List (Value Op)) :
    List (Value Op) → List (Value Op)
  | [] => []
  | v :: vs =>
      match v.hashKey with
      | some key =>
          if filed.any (fun earlier => earlier.1 == key && earlier.2 == v) then
            distinctAfter filed kept vs
          else
            v :: distinctAfter ((key, v) :: filed) (v :: kept) vs
      | none =>
          if kept.any (· == v) then distinctAfter filed kept vs
          else v :: distinctAfter filed (v :: kept) vs

/-- The items without those that equal an earlier one. -/
def distinct (vs : List (Value Op)) : List (Value Op) := distinctAfter [] [] vs

theorem mem_of_mem_distinctAfter {filed : List (HashKey × Value Op)} {kept vs : List (Value Op)}
    {v : Value Op} (h : v ∈ distinctAfter filed kept vs) : v ∈ vs := by
  induction vs generalizing filed kept with
  | nil => exact h
  | cons w ws ih =>
      rw [distinctAfter] at h
      -- `w` is left out or comes first, whether or not it has a hash key
      split at h <;> split at h
      · exact List.mem_cons_of_mem _ (ih h)
      · exact List.mem_cons.mpr ((List.mem_cons.mp h).imp_right ih)
      · exact List.mem_cons_of_mem _ (ih h)
      · exact List.mem_cons.mpr ((List.mem_cons.mp h).imp_right ih)

/-- Distinct items are among the items. -/
theorem mem_of_mem_distinct {vs : List (Value Op)} {v : Value Op} (h : v ∈ distinct vs) : v ∈ vs :=
  mem_of_mem_distinctAfter h

/-- The descriptor of the given kind that lists the distinct ones among `items`. -/
def Descriptor.ofItems (kind : Descriptor.Kind) (items : List (Value Op)) :
    Descriptor (Value Op) :=
  ⟨kind, distinct items⟩

/-- The descriptor that lists the items of both, of the kind of the first. -/
def Descriptor.merge (d e : Descriptor (Value Op)) : Descriptor (Value Op) :=
  .ofItems d.kind (d.items ++ e.items)

/-- Merges two values that are descriptors. -/
def Value.merge : Value Op → Value Op → Except Fault (Value Op)
  | .descriptor d, .descriptor e => .ok (.descriptor (d.merge e))
  | _, _ => .error .notADescriptor

/-- The number of different values, if all of them can be looked up in a set. -/
def distinctCount (vs : List (Value Op)) : Option Nat :=
  if vs.all Value.isHashable then some (distinct vs).length else none

end Tokenwise
