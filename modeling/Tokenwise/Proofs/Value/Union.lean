import Tokenwise.Callable.Stock
import Tokenwise.Proofs.Value.Distinct

/-!
# Merging descriptors is union

A descriptor is built from a list of items and keeps the distinct ones.  Merging two of them gives
the descriptor of both lists, one after the other, with the items in the very same order
(`Descriptor.merge_ofItems`).  So it does not matter how three are grouped, and what equals an item
of either list equals an item that is kept (`exists_mem_distinct_beq_iff`).

Equality of descriptors does not look at the order.  Two of one kind are equal just when each item
of either list has an equal one in the other list, whether or not it is kept
(`Descriptor.ofItems_beq_iff`).  That the order in which two are merged does not matter, and that
equal ones can be exchanged, is then a matter of lists that stand among each other (`Value.Among`).

These last laws exchange items for equal ones in both directions, and so equality has to be
symmetric on them.  It is where each dictionary, down to all that the items are made of, has its
keys once (`Value.HaveDistinctKeys`), as dictionaries do.
-/

namespace Tokenwise

variable {Op : Type}

namespace Value

/-- Whether no dictionary among the values, or among all that they are made of, has a key
twice. -/
def HaveDistinctKeys (vs : List (Value Op)) : Prop := ∀ v ∈ vs, v.Every HasDistinctKeys

variable {vs ws : List (Value Op)} {v w : Value Op}

theorem HaveDistinctKeys.beq_symm (h : HaveDistinctKeys vs) (hv : v ∈ vs) (hequal : v == w) :
    w == v :=
  beq_symm_of_every (fun _ hkeys => hkeys) (h v hv) hequal

theorem HaveDistinctKeys.kept (h : HaveDistinctKeys vs) : HaveDistinctKeys (distinct vs) :=
  fun v hv => h v (mem_of_mem_distinct hv)

theorem HaveDistinctKeys.append (h : HaveDistinctKeys vs) (hws : HaveDistinctKeys ws) :
    HaveDistinctKeys (vs ++ ws) :=
  fun v hv => (List.mem_append.mp hv).elim (h v) (hws v)

theorem among_of_subset (hsubset : vs ⊆ ws) : Among vs ws :=
  fun v hv => ⟨v, hsubset hv, beq_self v⟩

theorem among_swap (vs ws : List (Value Op)) : Among (vs ++ ws) (ws ++ vs) :=
  among_of_subset fun _ hv => List.mem_append.mpr (List.mem_append.mp hv).symm

/-- Values stand among others just when each of them is equalled by one of these. -/
theorem HaveDistinctKeys.among_iff (hvs : HaveDistinctKeys vs) (hws : HaveDistinctKeys ws) :
    Among vs ws ↔ ∀ v ∈ vs, ∃ w ∈ ws, w == v := by
  constructor
  · intro h v hv
    obtain ⟨w, hw, hequal⟩ := h v hv
    exact ⟨w, hw, hvs.beq_symm hv hequal⟩
  · intro h v hv
    obtain ⟨w, hw, hequal⟩ := h v hv
    exact ⟨w, hw, hws.beq_symm hw hequal⟩

theorem Among.append {others more : List (Value Op)} (h : Among vs ws) (hmore : Among others more) :
    Among (vs ++ others) (ws ++ more) := by
  intro v hv
  rcases List.mem_append.mp hv with hv | hv
  · obtain ⟨w, hw, hequal⟩ := h v hv
    exact ⟨w, List.mem_append_left _ hw, hequal⟩
  · obtain ⟨w, hw, hequal⟩ := hmore v hv
    exact ⟨w, List.mem_append_right _ hw, hequal⟩

/-- Values stand among the distinct ones of them. -/
theorem HaveDistinctKeys.among_distinct (h : HaveDistinctKeys vs) : Among vs (distinct vs) := by
  refine (h.among_iff h.kept).mpr ?_
  intro v hv
  obtain ⟨w, hw, hhides⟩ := exists_mem_distinct hv
  exact ⟨w, hw, beq_of_hides hhides⟩

theorem distinct_among (vs : List (Value Op)) : Among (distinct vs) vs :=
  among_of_subset (sublist_distinct vs).subset

/-- The distinct ones among values stand among others just when all of the values do. -/
theorem HaveDistinctKeys.distinct_among_distinct_iff (hvs : HaveDistinctKeys vs)
    (hws : HaveDistinctKeys ws) : Among (distinct vs) (distinct ws) ↔ Among vs ws := by
  have htrans {vs ws us : List (Value Op)} (h : Among vs ws) (hnext : Among ws us) : Among vs us :=
    h.trans hnext fun _ _ _ _ => beq_trans
  constructor
  · intro h
    exact htrans hvs.among_distinct (htrans h (distinct_among ws))
  · intro h
    exact htrans (distinct_among vs) (htrans h hws.among_distinct)

end Value

namespace Descriptor

open Value

variable {kind : Kind} {a b : List (Value Op)}

theorem merge_ofItems (kind : Kind) (a b : List (Value Op)) :
    (ofItems kind a).merge (ofItems kind b) = ofItems kind (a ++ b) := by
  simp only [merge, ofItems, distinct_distinct_append, distinct_append_distinct]

/-- **Descriptors of one kind are equal when their items stand among each other.** -/
theorem ofItems_beq_iff (ha : HaveDistinctKeys a) (hb : HaveDistinctKeys b) :
    (descriptor (ofItems kind a) == descriptor (ofItems kind b)) = true
      ↔ Among a b ∧ Among b a := by
  rw [← ha.distinct_among_distinct_iff hb, ← hb.distinct_among_distinct_iff ha,
    hb.kept.among_iff ha.kept]
  change sameDescriptor (ofItems kind a) (ofItems kind b) = true ↔ _
  simp [sameDescriptor_iff, ofItems]

/-- **Merging is union, with the items in the order of their first appearance.**  For any lists
of items, merging the descriptors of two of them gives the descriptor of both, one after the
other.  Its items are some of theirs, in this order; a value equals one of its items just when it
equals an item of one of the two; it does not matter how three are grouped; and a descriptor
merged with itself stays the same.  As dictionaries have no key twice, two descriptors can be
merged either way round, up to the order of the items, and merging equal descriptors gives equal
ones. -/
theorem merge_unites_items (kind : Kind) (a b c : List (Value Op)) :
    (ofItems kind a).merge (ofItems kind b) = ofItems kind (a ++ b)
      ∧ ((ofItems kind a).merge (ofItems kind b)).items.Sublist (a ++ b)
      ∧ (∀ v, (∃ item ∈ ((ofItems kind a).merge (ofItems kind b)).items, item == v)
          ↔ (∃ item ∈ a, item == v) ∨ ∃ item ∈ b, item == v)
      ∧ ((ofItems kind a).merge (ofItems kind b)).merge (ofItems kind c)
          = (ofItems kind a).merge ((ofItems kind b).merge (ofItems kind c))
      ∧ (ofItems kind a).merge (ofItems kind a) = ofItems kind a
      ∧ (HaveDistinctKeys a → HaveDistinctKeys b →
          descriptor ((ofItems kind a).merge (ofItems kind b))
              == descriptor ((ofItems kind b).merge (ofItems kind a))
          ∧ ∀ others more, HaveDistinctKeys others → HaveDistinctKeys more →
              descriptor (ofItems kind a) == descriptor (ofItems kind others) →
              descriptor (ofItems kind b) == descriptor (ofItems kind more) →
              descriptor ((ofItems kind a).merge (ofItems kind b))
                == descriptor ((ofItems kind others).merge (ofItems kind more))) := by
  simp only [merge_ofItems, List.append_assoc, true_and]
  refine ⟨sublist_distinct (a ++ b), ?_, ?_, ?_⟩
  · intro v
    change (∃ item ∈ distinct (a ++ b), item == v) ↔ _
    simp only [exists_mem_distinct_beq_iff, List.mem_append, or_and_right, exists_or]
  · exact congrArg (Descriptor.mk kind) (distinct_append_self a)
  · intro ha hb
    have hboth : HaveDistinctKeys (a ++ b) := ha.append hb
    constructor
    · exact (ofItems_beq_iff hboth (hb.append ha)).mpr ⟨among_swap a b, among_swap b a⟩
    · intro others more hothers hmore hfirst hsecond
      obtain ⟨hforth, hback⟩ := (ofItems_beq_iff ha hothers).mp hfirst
      obtain ⟨hnext, hagain⟩ := (ofItems_beq_iff hb hmore).mp hsecond
      exact (ofItems_beq_iff hboth (hothers.append hmore)).mpr
        ⟨hforth.append hnext, hback.append hagain⟩

/-- A truth value is merged into the number that it equals, also within a dictionary, and a
function into itself, but not into another one that does the same. -/
theorem truth_values_merged_into_numbers :
    let f : Value Stock := Stock.first.asValue [] 1
    let g : Value Stock := Stock.first.asValue [] 2
    let a : List (Value Stock) := [int 1, dictionary [("key", bool false)], f]
    let b : List (Value Stock) := [bool true, f, list [], g]
    let others : List (Value Stock) := [f, dictionary [("key", int 0)], bool true]
    HaveDistinctKeys a ∧ HaveDistinctKeys b ∧ HaveDistinctKeys others
      ∧ ((ofItems .noneOf a).merge (ofItems .noneOf b)).items
          = [int 1, dictionary [("key", bool false)], f, list [], g]
      ∧ descriptor ((ofItems .noneOf a).merge (ofItems .noneOf b))
          == descriptor ((ofItems .noneOf others).merge (ofItems .noneOf b)) := by
  intro f g a b others
  have hint (n : Int) : (int n : Value Stock).Every HasDistinctKeys := .intro trivial nofun
  have hbool (t : Bool) : (bool t : Value Stock).Every HasDistinctKeys := .intro trivial nofun
  have htext (s : String) : (text s : Value Stock).Every HasDistinctKeys := .intro trivial nofun
  have hempty : (list [] : Value Stock).Every HasDistinctKeys := .intro trivial nofun
  have hfirst (mark : Nat) : (Stock.first.asValue [] mark).Every HasDistinctKeys :=
    .intro trivial nofun
  have hdictionary {v : Value Stock} (hv : v.Every HasDistinctKeys) :
      (dictionary [("key", v)]).Every HasDistinctKeys := by
    have hentry : (tuple [text "key", v]).Every HasDistinctKeys :=
      .intro trivial (List.forall_mem_cons.mpr ⟨htext "key", List.forall_mem_singleton.mpr hv⟩)
    exact .intro (List.nodup_singleton "key") (List.forall_mem_singleton.mpr hentry)
  have ha : HaveDistinctKeys a := by
    simp only [HaveDistinctKeys, a, List.forall_mem_cons]
    exact ⟨hint 1, hdictionary (hbool false), hfirst 1, nofun⟩
  have hb : HaveDistinctKeys b := by
    simp only [HaveDistinctKeys, b, List.forall_mem_cons]
    exact ⟨hbool true, hfirst 1, hempty, hfirst 2, nofun⟩
  have hothers : HaveDistinctKeys others := by
    simp only [HaveDistinctKeys, others, List.forall_mem_cons]
    exact ⟨hfirst 1, hdictionary (hint 0), hbool true, nofun⟩
  obtain ⟨hmerge, -, -, -, -, hlaws⟩ := merge_unites_items .noneOf a b []
  obtain ⟨-, hcongr⟩ := hlaws ha hb
  refine ⟨ha, hb, hothers, ?_, hcongr others b hothers hb rfl rfl⟩
  rw [hmerge]
  rfl

end Descriptor

end Tokenwise
