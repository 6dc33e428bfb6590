import Tokenwise.Grammar.Basic
import Tokenwise.Proofs.Parser.Pieces

/-!
# Items with a separator between them

A list of items is read by repeating an item and a separator, and by one more item, which
the outputs before it are extended with (`Grammar.separated`).  The last run of the
repetition always goes wrong: it has taken the last item when the separator is missing.  What
it has taken is given back, and the item behind the repetition takes it once more.

If the items are taken where a separator follows them, and the last one where the rest does,
the items with separators between them are taken (`Parser.Takes.separated`).  Items may be
empty, since an item and a separator never are.
-/

namespace Tokenwise

section Joining

variable {α β ι : Type}

/-- Joined items are the earlier ones, each followed by the separator, and the last one. -/
theorem intercalate_concat (sep : α) (words : List (List α)) (last : List α) :
    [sep].intercalate (words ++ [last]) = (words.flatMap fun word => word ++ [sep]) ++ last := by
  induction words with
  | nil => exact List.intercalate_singleton
  | cons word words ih =>
      have hmore : words ++ [last] ≠ [] := List.append_ne_nil_of_right_ne_nil _ (List.cons_ne_nil _ _)
      calc [sep].intercalate (word :: (words ++ [last]))
          = word ++ [sep] ++ [sep].intercalate (words ++ [last]) :=
            List.intercalate_cons_of_ne_nil hmore
        _ = word ++ [sep] ++ ((words.flatMap fun word => word ++ [sep]) ++ last) := by rw [ih]
        _ = ((word :: words).flatMap fun word => word ++ [sep]) ++ last := by
            rw [List.flatMap_cons, List.append_assoc _ _ last]

theorem map_intercalate (f : α → β) (sep : α) (write : ι → List α) (xs : List ι) :
    ([sep].intercalate (xs.map write)).map f
      = [f sep].intercalate (xs.map fun x => (write x).map f) := by
  induction xs with
  | nil => rfl
  | cons x xs ih =>
      by_cases hxs : xs = []
      · rw [hxs, List.map_singleton, List.map_singleton, List.intercalate_singleton,
          List.intercalate_singleton]
      · rw [List.map_cons, List.map_cons,
          List.intercalate_cons_of_ne_nil fun h => hxs (List.map_eq_nil_iff.mp h),
          List.intercalate_cons_of_ne_nil fun h => hxs (List.map_eq_nil_iff.mp h),
          List.map_append, List.map_append, ih, List.map_singleton]

/-- No item is longer than the joined items. -/
theorem length_le_of_mem_intercalate {sep : α} {write : ι → List α} {xs : List ι} {x : ι}
    (hx : x ∈ xs) : (write x).length ≤ ([sep].intercalate (xs.map write)).length := by
  induction xs with
  | nil => cases hx
  | cons first xs ih =>
      by_cases hxs : xs = []
      · have hfirst : x = first := List.mem_singleton.mp (hxs ▸ hx)
        have honly : (write x).length = ([sep].intercalate ((first :: xs).map write)).length := by
          rw [hfirst, hxs, List.map_singleton, List.intercalate_singleton]
        exact Nat.le_of_eq honly
      · rw [List.map_cons,
          List.intercalate_cons_of_ne_nil fun h => hxs (List.map_eq_nil_iff.mp h),
          List.length_append, List.length_append]
        rcases List.mem_cons.mp hx with hfirst | hmore
        · rw [hfirst]
          omega
        · have hle := ih hmore
          omega

end Joining

variable {Op : Type} [Operations Op]

/-- Items with the separator between them, at least one. -/
def Parser.separated (item : Parser Op) (sep : Value Op) (limit : Nat) : Parser Op :=
  ((item.keepLeft (token sep)).repeated .any limit).extend.apply item

/-- Items with the separator between them, at least one. -/
def Grammar.separated (item : Grammar Op) (sep : Value Op) : Grammar Op :=
  ((item.keepLeft (token sep)).repeated .any).extend.apply item

@[simp] theorem Grammar.parser_separated (scope : String → Run Op (Parser Op)) (limit : Nat)
    (item : Grammar Op) (sep : Value Op) :
    (item.separated sep).parser scope limit = (item.parser scope limit).separated sep limit := rfl

namespace Parser

variable {item : Parser Op} {sep : Value Op} {limit : Nat} {rest : List (Value Op)}
  {ι : Type} {write : ι → List (Value Op)} {value : ι → Value Op} {xs : List ι}

/-- **Items with separators between them are taken.**  Each item has to be taken where a
separator follows it.  The last one has to be taken where the rest follows, which must not
begin with a separator. -/
theorem Takes.separated (hxs : xs ≠ [])
    (hitem : ∀ x ∈ xs, ∀ after, item.Takes (write x) (sep :: after) (value x))
    (hlast : ∀ x ∈ xs, item.Takes (write x) rest (value x))
    (hrest : ∀ v, rest.head? = some v → (v == sep) = false)
    (hlimit : ([sep].intercalate (xs.map write)).length < limit) :
    (item.separated sep limit).Takes ([sep].intercalate (xs.map write)) rest
      (.list (xs.map value)) := by
  obtain ⟨before, last, rfl⟩ : ∃ before last, xs = before ++ [last] :=
    ⟨xs.dropLast, xs.getLast hxs, (List.dropLast_concat_getLast hxs).symm⟩
  rw [List.map_append, List.map_singleton, intercalate_concat, List.flatMap_map] at hlimit ⊢
  rw [List.length_append] at hlimit
  have hmem : last ∈ before ++ [last] := List.mem_append_right _ List.mem_cons_self
  have hloop : ((item.keepLeft (token sep)).repeated .any limit).Takes
      (before.flatMap fun x => write x ++ [sep]) (write last ++ rest)
      (.list (before.map value)) := by
    refine Takes.repeated (fun x hx after => ?_)
      (fun x _ => List.append_ne_nil_of_right_ne_nil _ (List.cons_ne_nil _ _))
      ((hlast last hmem).keepLeft_refuses (refuses_token hrest)) (by omega)
    exact (hitem x (List.mem_append_left _ hx) after).keepLeft (takes_token sep after)
  have hcall : ((Value.function (.appendTo (.list (before.map value)))).call
      [value last]).ending = .done (.list ((before ++ [last]).map value)) := by
    rw [List.map_append]
    rfl
  exact (hloop.map rfl).sequence (hlast last hmem) hcall

end Parser

end Tokenwise
