import Tokenwise.Proofs.Value.Equality
import Tokenwise.Value.Distinct

/-!
# What is left of equal values

`distinct` looks for an equal value in two ways: under its hash key, if it has one, and among
all that were kept, if it has none.  Either way a value is left out because an earlier one
**hides** it (`Value.hides`), and so the two ways are one, `visibleAfter`, which only
remembers what was kept (`distinct_eq_visibleAfter`).

What is hidden hides nothing more, for hiding is transitive (`Value.hides_trans`).  So it does
not matter whether a part of the values has been gone through before
(`distinct_distinct_append`, `distinct_append_distinct`), and merging descriptors is
associative, item by item (`Descriptor.merge_assoc`).

Each value is hidden by one that is kept, itself or an earlier one (`exists_mem_distinct`), and
no value that is kept hides another one (`pairwise_distinct`).
-/

namespace Tokenwise

variable {Op : Type}

namespace Value

/-- Whether a value is left out behind an equal one.  Without a hash key it is compared with
every value before it, and with one only with those under this key. -/
def hides (earlier later : Value Op) : Bool :=
  earlier == later && (later.hashKey == none || earlier.hashKey == later.hashKey)

theorem hides_trans {v w u : Value Op} (hvw : v.hides w) (hwu : w.hides u) : v.hides u := by
  simp only [hides, Bool.and_eq_true, Bool.or_eq_true, beq_iff_eq] at *
  obtain ⟨hequal, hkey⟩ := hvw
  obtain ⟨hnext, hmore⟩ := hwu
  refine ⟨beq_trans hequal hnext, ?_⟩
  rcases hmore with hnone | hsame
  · exact .inl hnone
  · exact hkey.imp hsame.symm.trans fun h => h.trans hsame

theorem hides_self (v : Value Op) : v.hides v := by
  simp [hides, beq_self]

theorem beq_of_hides {v w : Value Op} (h : v.hides w) : v == w :=
  (Bool.and_eq_true_iff.mp h).1

end Value

/-- The values that no earlier one hides, when those in `kept` came before them. -/
def visibleAfter (kept : List (Value Op)) : List (Value Op) → List (Value Op)
  | [] => []
  | v :: vs =>
      if kept.any (·.hides v) then visibleAfter kept vs else v :: visibleAfter (v :: kept) vs

/-- The kept values that have a hash key, each under its key. -/
def filedOf (kept : List (Value Op)) : List (HashKey × Value Op) :=
  kept.filterMap fun v => v.hashKey.map (·, v)

theorem filedOf_cons_of_key {v : Value Op} {key : HashKey} (hkey : v.hashKey = some key)
    (kept : List (Value Op)) : filedOf (v :: kept) = (key, v) :: filedOf kept := by
  simp [filedOf, hkey]

theorem filedOf_cons_of_none {v : Value Op} (hkey : v.hashKey = none)
    (kept : List (Value Op)) : filedOf (v :: kept) = filedOf kept := by
  simp [filedOf, hkey]

/-- A value with a key is found under it just when an earlier one hides it. -/
theorem any_filedOf {v : Value Op} {key : HashKey} (hkey : v.hashKey = some key)
    (kept : List (Value Op)) :
    (filedOf kept).any (fun earlier => earlier.1 == key && earlier.2 == v)
      = kept.any (·.hides v) := by
  rw [filedOf, List.any_filterMap]
  congr 1
  funext earlier
  cases hearlier : earlier.hashKey with
  | none => simp [Value.hides, hearlier, hkey]
  | some other => simp [Value.hides, hearlier, hkey, Bool.and_comm]

theorem any_beq_of_none {v : Value Op} (hkey : v.hashKey = none) (kept : List (Value Op)) :
    kept.any (· == v) = kept.any (·.hides v) := by
  simp [Value.hides, hkey]

/-- The two ways of looking for an earlier value are one. -/
theorem distinctAfter_filedOf (kept vs : List (Value Op)) :
    distinctAfter (filedOf kept) kept vs = visibleAfter kept vs := by
  induction vs generalizing kept with
  | nil => rfl
  | cons v vs ih =>
      rw [distinctAfter, visibleAfter]
      cases hkey : v.hashKey with
      | some key => simp only [any_filedOf hkey, ← filedOf_cons_of_key hkey kept, ih]
      | none =>
          have hrest : distinctAfter (filedOf kept) (v :: kept) vs = visibleAfter (v :: kept) vs := by
            rw [← filedOf_cons_of_none hkey kept, ih]
          simp only [any_beq_of_none hkey, ih, hrest]

theorem distinct_eq_visibleAfter (vs : List (Value Op)) : distinct vs = visibleAfter [] vs :=
  distinctAfter_filedOf [] vs

/-- Values that are left out hide nothing that those before them do not hide. -/
theorem visibleAfter_visibleAfter_append {kept seen : List (Value Op)}
    (hseen : ∀ v, seen.any (·.hides v) → kept.any (·.hides v)) (vs more : List (Value Op)) :
    visibleAfter kept (visibleAfter seen vs ++ more) = visibleAfter kept (vs ++ more) := by
  induction vs generalizing kept seen with
  | nil => rfl
  | cons v vs ih =>
      rw [List.cons_append]
      by_cases hhidden : seen.any (·.hides v)
      · rw [visibleAfter, if_pos hhidden, ih hseen, visibleAfter, if_pos (hseen v hhidden)]
      · rw [visibleAfter, if_neg hhidden, List.cons_append, visibleAfter, visibleAfter]
        by_cases hkept : kept.any (·.hides v)
        · rw [if_pos hkept, if_pos hkept]
          refine ih ?_
          intro u hu
          rw [List.any_cons, Bool.or_eq_true] at hu
          rcases hu with hv | hu
          · obtain ⟨w, hw, hwv⟩ := List.any_eq_true.mp hkept
            exact List.any_eq_true.mpr ⟨w, hw, Value.hides_trans hwv hv⟩
          · exact hseen u hu
        · rw [if_neg hkept, if_neg hkept]
          congr 1
          refine ih ?_
          intro u hu
          rw [List.any_cons, Bool.or_eq_true] at hu ⊢
          exact hu.imp_right (hseen u)

theorem visibleAfter_append_visible (kept vs more : List (Value Op)) :
    visibleAfter kept (vs ++ visibleAfter [] more) = visibleAfter kept (vs ++ more) := by
  induction vs generalizing kept with
  | nil =>
      have hnone (v : Value Op) : ([] : List (Value Op)).any (·.hides v) → kept.any (·.hides v) :=
        nofun
      simpa using visibleAfter_visibleAfter_append hnone more []
  | cons v vs ih =>
      rw [List.cons_append, List.cons_append, visibleAfter, visibleAfter, ih, ih]

theorem distinct_distinct_append (vs ws : List (Value Op)) :
    distinct (distinct vs ++ ws) = distinct (vs ++ ws) := by
  simp only [distinct_eq_visibleAfter]
  exact visibleAfter_visibleAfter_append (fun _ => id) vs ws

theorem distinct_append_distinct (vs ws : List (Value Op)) :
    distinct (vs ++ distinct ws) = distinct (vs ++ ws) := by
  simp only [distinct_eq_visibleAfter]
  exact visibleAfter_append_visible [] vs ws

theorem Descriptor.merge_assoc (d e f : Descriptor (Value Op)) :
    (d.merge e).merge f = d.merge (e.merge f) := by
  simp only [merge, ofItems, distinct_distinct_append, distinct_append_distinct, List.append_assoc]

theorem visibleAfter_append (kept vs ws : List (Value Op)) :
    visibleAfter kept (vs ++ ws)
      = visibleAfter kept vs ++ visibleAfter ((visibleAfter kept vs).reverse ++ kept) ws := by
  induction vs generalizing kept with
  | nil => rfl
  | cons v vs ih =>
      rw [List.cons_append, visibleAfter, visibleAfter]
      split
      · exact ih kept
      · rw [ih, List.reverse_cons, List.append_assoc, List.singleton_append, List.cons_append]

theorem visibleAfter_eq_nil {kept vs : List (Value Op)}
    (h : ∀ v ∈ vs, kept.any (·.hides v)) : visibleAfter kept vs = [] := by
  induction vs with
  | nil => rfl
  | cons v vs ih =>
      obtain ⟨hfirst, hrest⟩ := List.forall_mem_cons.mp h
      rw [visibleAfter, if_pos hfirst, ih hrest]

theorem sublist_visibleAfter (kept vs : List (Value Op)) : (visibleAfter kept vs).Sublist vs := by
  induction vs generalizing kept with
  | nil => exact .slnil
  | cons v vs ih =>
      rw [visibleAfter]
      split
      · exact (ih kept).cons v
      · exact (ih (v :: kept)).cons_cons v

theorem exists_mem_visibleAfter (kept : List (Value Op)) {vs : List (Value Op)} {v : Value Op}
    (hv : v ∈ vs) :
    ∃ w ∈ visibleAfter kept vs ++ kept, w.hides v := by
  induction vs generalizing kept with
  | nil => cases hv
  | cons u vs ih =>
      rw [visibleAfter]
      by_cases hhidden : kept.any (·.hides u)
      · rw [if_pos hhidden]
        rcases List.mem_cons.mp hv with rfl | hv
        · obtain ⟨w, hw, hhides⟩ := List.any_eq_true.mp hhidden
          exact ⟨w, List.mem_append_right _ hw, hhides⟩
        · exact ih kept hv
      · rw [if_neg hhidden]
        rcases List.mem_cons.mp hv with rfl | hv
        · exact ⟨v, List.mem_cons_self, v.hides_self⟩
        · obtain ⟨w, hw, hhides⟩ := ih (u :: kept) hv
          refine ⟨w, ?_, hhides⟩
          simp only [List.mem_append, List.mem_cons, List.cons_append] at hw ⊢
          tauto

theorem not_hides_visibleAfter {kept vs : List (Value Op)} {v w : Value Op} (hv : v ∈ kept)
    (hw : w ∈ visibleAfter kept vs) : ¬ v.hides w := by
  induction vs generalizing kept with
  | nil => cases hw
  | cons u vs ih =>
      rw [visibleAfter] at hw
      split at hw
      case isTrue => exact ih hv hw
      case isFalse hshown =>
        rcases List.mem_cons.mp hw with rfl | hw
        · exact fun hhides => hshown (List.any_eq_true.mpr ⟨v, hv, hhides⟩)
        · exact ih (List.mem_cons_of_mem _ hv) hw

/-- No distinct value hides a later one. -/
theorem pairwise_visibleAfter (kept vs : List (Value Op)) :
    (visibleAfter kept vs).Pairwise fun v w => ¬ v.hides w := by
  induction vs generalizing kept with
  | nil => exact .nil
  | cons v vs ih =>
      rw [visibleAfter]
      split
      · exact ih kept
      · exact .cons (fun w hw => not_hides_visibleAfter List.mem_cons_self hw) (ih _)

/-- The distinct values come in the order in which they first appear. -/
theorem sublist_distinct (vs : List (Value Op)) : (distinct vs).Sublist vs := by
  rw [distinct_eq_visibleAfter]
  exact sublist_visibleAfter [] vs

/-- For each value there is a distinct one that stands for it. -/
theorem exists_mem_distinct {vs : List (Value Op)} {v : Value Op} (hv : v ∈ vs) :
    ∃ w ∈ distinct vs, w.hides v := by
  simpa only [distinct_eq_visibleAfter, List.append_nil] using exists_mem_visibleAfter [] hv

/-- What equals a value is found among the distinct values, if it is found at all. -/
theorem exists_mem_distinct_beq_iff {vs : List (Value Op)} {v : Value Op} :
    (∃ w ∈ distinct vs, w == v) ↔ ∃ w ∈ vs, w == v := by
  constructor
  · intro h
    obtain ⟨w, hw, hequal⟩ := h
    exact ⟨w, mem_of_mem_distinct hw, hequal⟩
  · intro h
    obtain ⟨w, hw, hequal⟩ := h
    obtain ⟨u, hu, hhides⟩ := exists_mem_distinct hw
    exact ⟨u, hu, Value.beq_trans (Value.beq_of_hides hhides) hequal⟩

theorem distinct_append_self (vs : List (Value Op)) : distinct (vs ++ vs) = distinct vs := by
  have hagain : ∀ v ∈ vs, ((visibleAfter [] vs).reverse ++ []).any (·.hides v) := by
    intro v hv
    obtain ⟨w, hw, hhides⟩ := exists_mem_distinct hv
    rw [distinct_eq_visibleAfter] at hw
    exact List.any_eq_true.mpr ⟨w, by simpa using hw, hhides⟩
  rw [distinct_eq_visibleAfter, distinct_eq_visibleAfter, visibleAfter_append,
    visibleAfter_eq_nil hagain, List.append_nil]

theorem pairwise_distinct (vs : List (Value Op)) :
    (distinct vs).Pairwise fun v w => ¬ v.hides w := by
  rw [distinct_eq_visibleAfter]
  exact pairwise_visibleAfter [] vs

end Tokenwise
