import Mathlib.Data.List.Infix
import Tokenwise.Callable.Stock
import Tokenwise.Proofs.Value.HashKey

/-!
# First appearances

`distinct` looks for an earlier value in one of two places.  A value with a hash key is looked up
among those of the kept values that have one, under its key, and a value without is compared with
all kept values.  Neither is what is asked for, which is whether any earlier value equals it, kept
or not (`firstAfter`).

Both come to the same.  A value that was left out equals one that was kept, so that nothing is
missed by comparing with kept values only (`any_distinct_beq`); this needs that equality is
transitive.  And equal values have one key or have none, so that a value which equals a kept one is
found where it is looked up (`any_filedOf_distinct`).  The induction over the values carries the two
together: what is kept hides a value just when an earlier one equals it
(`visibleAfter_eq_firstAfter`).
-/

namespace Tokenwise

variable {Op : Type}

/-- The values that equal none of those in `earlier` and none that comes before them, in their
order. -/
def firstAfter (earlier vs : List (Value Op)) : List (Value Op) :=
  ((vs.inits.zip vs).filter fun place => !(earlier ++ place.1).any (· == place.2)).map Prod.snd

theorem firstAfter_cons (earlier : List (Value Op)) (v : Value Op) (vs : List (Value Op)) :
    firstAfter earlier (v :: vs)
      = if earlier.any (· == v) then firstAfter (earlier ++ [v]) vs
        else v :: firstAfter (earlier ++ [v]) vs := by
  have hrest : ((vs.inits.map (v :: ·)).zip vs).filter
        (fun place => !(earlier ++ place.1).any (· == place.2))
      = ((vs.inits.zip vs).filter
          fun place => !(earlier ++ [v] ++ place.1).any (· == place.2)).map
            (Prod.map (v :: ·) id) := by
    rw [List.zip_map_left, List.filter_map]
    simp only [Function.comp_def, Prod.map_fst, Prod.map_snd, id_eq, List.append_assoc,
      List.singleton_append]
  rw [firstAfter, List.inits_cons, List.zip_cons_cons, List.filter_cons, List.append_nil, hrest]
  cases earlier.any (· == v) <;> simp [firstAfter, List.map_map, Function.comp_def]

namespace Value

variable {v w : Value Op}

/-- A well-formed value is left out behind each one that it equals. -/
theorem hides_eq_beq (hv : v.Every IsWellFormed) (hw : w.Every IsWellFormed) :
    v.hides w = (v == w) := by
  cases hequal : v == w with
  | false => rw [hides, hequal, Bool.false_and]
  | true =>
      have hkey : v.hashKey = w.hashKey := hashKey_eq_of_wellFormed hv hw hequal
      simp [hides, hequal, hkey]

end Value

open Value

variable {vs : List (Value Op)}

/-- What is kept hides the values that equal an earlier one. -/
theorem visibleAfter_eq_firstAfter {kept earlier : List (Value Op)}
    (hkept : ∀ v : Value Op, v.Every IsWellFormed →
      kept.any (·.hides v) = earlier.any (· == v))
    (hvs : ∀ v ∈ vs, v.Every IsWellFormed) :
    visibleAfter kept vs = firstAfter earlier vs := by
  induction vs generalizing kept earlier with
  | nil => rfl
  | cons v vs ih =>
      obtain ⟨hv, hmore⟩ := List.forall_mem_cons.mp hvs
      rw [visibleAfter, firstAfter_cons, hkept v hv]
      by_cases hknown : earlier.any (· == v)
      · rw [if_pos hknown, if_pos hknown]
        refine ih ?_ hmore
        intro u hu
        rw [hkept u hu, List.any_append, List.any_cons, List.any_nil, Bool.or_false]
        cases hvu : v == u with
        | false => rw [Bool.or_false]
        | true =>
            -- the earlier value that `v` equals is still there for what equals `v`
            obtain ⟨w, hw, hwv⟩ := List.any_eq_true.mp hknown
            rw [Bool.or_true]
            exact List.any_eq_true.mpr ⟨w, hw, beq_trans hwv hvu⟩
      · rw [if_neg hknown, if_neg hknown]
        congr 1
        refine ih ?_ hmore
        intro u hu
        rw [List.any_cons, hides_eq_beq hv hu, hkept u hu, List.any_append, List.any_cons,
          List.any_nil, Bool.or_false, Bool.or_comm]

theorem distinct_eq_firstAfter (hvs : ∀ v ∈ vs, v.Every IsWellFormed) :
    distinct vs = firstAfter [] vs := by
  rw [distinct_eq_visibleAfter]
  exact visibleAfter_eq_firstAfter (fun _ _ => rfl) hvs

/-- To compare a value with those that were kept is to compare it with all. -/
theorem any_distinct_beq (vs : List (Value Op)) (v : Value Op) :
    (distinct vs).any (· == v) = vs.any (· == v) := by
  rw [Bool.eq_iff_iff, List.any_eq_true, List.any_eq_true]
  exact exists_mem_distinct_beq_iff

/-- To look a value up under its key is to compare it with all. -/
theorem any_filedOf_distinct (hvs : ∀ v ∈ vs, v.Every IsWellFormed) {v : Value Op}
    (hv : v.Every IsWellFormed) {key : HashKey} (hkey : v.hashKey = some key) :
    (filedOf (distinct vs)).any (fun earlier => earlier.1 == key && earlier.2 == v)
      = vs.any (· == v) := by
  have hsame : ∀ w ∈ distinct vs, w.hides v = (w == v) :=
    fun w hw => hides_eq_beq (hvs w (mem_of_mem_distinct hw)) hv
  rw [any_filedOf hkey, ← any_distinct_beq, Bool.eq_iff_iff, List.any_eq_true, List.any_eq_true]
  exact exists_congr fun w => and_congr_right fun hw => by rw [hsame w hw]

/-- No two distinct values are equal. -/
theorem pairwise_distinct_not_beq (hvs : ∀ v ∈ vs, v.Every IsWellFormed) :
    (distinct vs).Pairwise fun v w => ¬ v == w ∧ ¬ w == v := by
  have hformed (v : Value Op) (hv : v ∈ distinct vs) : v.Every IsWellFormed :=
    hvs v (mem_of_mem_distinct hv)
  refine (pairwise_distinct vs).imp_of_mem ?_
  intro v w hv hw hshown
  rw [hides_eq_beq (hformed v hv) (hformed w hw)] at hshown
  exact ⟨hshown, fun hequal => hshown (beq_symm_of_wellFormed (hformed w hw) hequal)⟩

/-- A value equals one of the distinct values, and no other one. -/
theorem countP_distinct_eq_one (hvs : ∀ v ∈ vs, v.Every IsWellFormed) {v : Value Op} (hv : v ∈ vs) :
    (distinct vs).countP (· == v) = 1 := by
  obtain ⟨w, hw, hhides⟩ := exists_mem_distinct hv
  have hequal : w == v := beq_of_hides hhides
  have hback : v == w := beq_symm_of_wellFormed (hvs w (mem_of_mem_distinct hw)) hequal
  have hpairs := pairwise_distinct_not_beq hvs
  obtain ⟨before, after, hsplit⟩ := List.append_of_mem hw
  rw [hsplit, List.pairwise_middle And.symm, List.pairwise_cons] at hpairs
  have hothers : ∀ u ∈ before ++ after, ¬ u == v :=
    fun u hu huv => (hpairs.1 u hu).2 (beq_trans huv hback)
  obtain ⟨hbefore, hafter⟩ := List.forall_mem_append.mp hothers
  have hcount : (w :: after).countP (· == v) = after.countP (· == v) + 1 :=
    List.countP_cons_of_pos hequal
  rw [hsplit, List.countP_append, hcount, List.countP_eq_zero.mpr hbefore,
    List.countP_eq_zero.mpr hafter]

/-- **A value is kept just when no earlier one equals it.**  Take any values that are put together
as their kinds are, with hash keys and without, in any order.  Each of them is compared with those
kept so far, or looked up under its key among those of them that have one, and either way an equal
one is found just when one of all the values before it is equal.  So the distinct values are those
that equal no earlier one, in their order.  No two of them are equal, and each value equals exactly
one of them. -/
theorem kept_just_when_no_earlier_equals (hvs : ∀ v ∈ vs, v.Every IsWellFormed) :
    (∀ before v after, vs = before ++ v :: after →
        (distinct before).any (· == v) = before.any (· == v)
        ∧ ∀ key, v.hashKey = some key →
            (filedOf (distinct before)).any (fun earlier => earlier.1 == key && earlier.2 == v)
              = before.any (· == v))
      ∧ distinct vs = firstAfter [] vs
      ∧ ((distinct vs).Pairwise fun v w => ¬ v == w ∧ ¬ w == v)
      ∧ ∀ v ∈ vs, (distinct vs).countP (· == v) = 1 := by
  refine ⟨?_, distinct_eq_firstAfter hvs, pairwise_distinct_not_beq hvs, ?_⟩
  · intro before v after hsplit
    subst hsplit
    obtain ⟨hbefore, hrest⟩ := List.forall_mem_append.mp hvs
    have hv : v.Every IsWellFormed := hrest v List.mem_cons_self
    exact ⟨any_distinct_beq before v, fun key hkey => any_filedOf_distinct hbefore hv hkey⟩
  · intro v hv
    exact countP_distinct_eq_one hvs hv

/-- Values with and without a hash key: some of one key that differ, among them two functions, and
some that equal an earlier one, which may be of another kind. -/
theorem streams_and_lists_kept_once :
    let view : Value Stock := stream ⟨.whole (.list [list []]), 0⟩
    let labels : Value Stock := descriptor (.ofItems .oneOf [text "a", list []])
    let swapped : Value Stock := descriptor (.ofItems .oneOf [list [], text "a"])
    let f : Value Stock := Stock.first.asValue [] 1
    let g : Value Stock := Stock.first.asValue [] 2
    let vs : List (Value Stock) :=
      [int 0, f, list [int 0], view, labels, bool false, list [bool false], g, swapped, f, view]
    (∀ v ∈ vs, v.Every IsWellFormed)
      ∧ distinct vs = [int 0, f, list [int 0], view, labels, g]
      ∧ (distinct vs).countP (· == f) = 1 ∧ (distinct vs).countP (· == swapped) = 1 := by
  intro view labels swapped f g vs
  have hint : (int 0 : Value Stock).Every IsData := .intro trivial nofun
  have hbool : (bool false : Value Stock).Every IsData := .intro trivial nofun
  have htext : (text "a" : Value Stock).Every IsData := .intro trivial nofun
  have hempty : (list [] : Value Stock).Every IsData := .intro trivial nofun
  have hlist {v : Value Stock} (hv : v.Every IsData) : (list [v]).Every IsData :=
    .intro trivial (List.forall_mem_singleton.mpr hv)
  have hview : view.Every IsData := .intro trivial (List.forall_mem_singleton.mpr (hlist hempty))
  have hlabels : labels.Every IsData :=
    every_isData_ofItems (List.forall_mem_cons.mpr
      ⟨htext, List.forall_mem_singleton.mpr hempty⟩) .oneOf
  have hswapped : swapped.Every IsData :=
    every_isData_ofItems (List.forall_mem_cons.mpr
      ⟨hempty, List.forall_mem_singleton.mpr htext⟩) .oneOf
  have hfirst (mark : Nat) : (Stock.first.asValue [] mark).Every IsWellFormed :=
    .intro ⟨trivial, nofun⟩ nofun
  have hformed : ∀ v ∈ vs, v.Every IsWellFormed := by
    simp only [vs, List.forall_mem_cons]
    exact ⟨every_isWellFormed hint, hfirst 1, every_isWellFormed (hlist hint),
      every_isWellFormed hview, every_isWellFormed hlabels, every_isWellFormed hbool,
      every_isWellFormed (hlist hbool), hfirst 2, every_isWellFormed hswapped, hfirst 1,
      every_isWellFormed hview, nofun⟩
  obtain ⟨-, hkept, -, hone⟩ := kept_just_when_no_earlier_equals hformed
  exact ⟨hformed, hkept.trans rfl, hone f (by simp [vs]), hone swapped (by simp [vs])⟩

end Tokenwise
