import Tokenwise.Value.Text

/-!
# Texts on one line

What is put together from texts without a line break has none: names in a listing
(`Listing.oneLine_alternatives`), items in a descriptor
(`Value.exists_plainDescriptor_of_oneLine`).

White space is shown by its name.  So of the texts with a line break, that which is nothing
but a line break is shown on one line, and no other (`CharClass.oneLine_shown_iff`).  A single
character always is (`Value.oneLine_char`).
-/

namespace Tokenwise

/-- Whether a text has no line break. -/
def OneLine (s : String) : Prop := '\n' ∉ s.toList

instance (s : String) : Decidable (OneLine s) := inferInstanceAs (Decidable ('\n' ∉ s.toList))

theorem oneLine_append_iff {s t : String} : OneLine (s ++ t) ↔ OneLine s ∧ OneLine t := by
  simp [OneLine]

namespace Listing

theorem oneLine_commas {names : List String} (h : ∀ name ∈ names, OneLine name) :
    OneLine (commas names) := by
  have hcomma : OneLine ", " := by decide
  induction names with
  | nil => simp [commas, OneLine]
  | cons first more ih =>
      have hfirst : OneLine first := h first List.mem_cons_self
      have hmore : OneLine (commas more) := ih fun name hname => h name (List.mem_cons_of_mem _ hname)
      cases more with
      | nil => simpa [commas] using hfirst
      | cons second more =>
          rw [commas, String.intercalate_cons_cons]
          exact oneLine_append_iff.mpr ⟨oneLine_append_iff.mpr ⟨hfirst, hcomma⟩, hmore⟩

theorem oneLine_alternatives {empty : String} {names : List String} (hempty : OneLine empty)
    (h : ∀ name ∈ names, OneLine name) : OneLine (alternatives empty names) := by
  have hor : OneLine " or " := by decide
  have hand : OneLine ", and " := by decide
  unfold alternatives
  split
  case h_1 => exact hempty
  case h_2 name => exact h name List.mem_cons_self
  case h_3 first second =>
      simp only [oneLine_append_iff]
      exact ⟨⟨h first (by simp), hor⟩, h second (by simp)⟩
  case h_4 first second third more =>
      simp only [oneLine_append_iff]
      refine ⟨⟨oneLine_commas fun name hname => h name ?_, hand⟩, h _ ?_⟩
      · rw [List.mem_cons, List.mem_cons] at hname ⊢
        exact hname.imp_right fun hmore => hmore.imp_right fun hlast => List.dropLast_subset _ hlast
      · exact List.mem_cons_of_mem _ (List.mem_cons_of_mem _ (List.getLast_mem _))

end Listing

namespace CharClass

/-- A text is shown by its name, as white space, or as it is. -/
theorem shown_cases (s : String) :
    (∃ entry ∈ whitespaceNames, entry.1 = s ∧ shown s = entry.2)
      ∨ shown s = s ∧ ∀ entry ∈ whitespaceNames, entry.1 ≠ s := by
  cases hname : whitespaceNames.lookup s with
  | some name =>
      obtain ⟨before, after, hentries, -⟩ := List.lookup_eq_some_iff.mp hname
      have hentry : (s, name) ∈ whitespaceNames := by simp [hentries]
      exact .inl ⟨(s, name), hentry, rfl, by rw [shown, hname, Option.getD_some]⟩
  | none =>
      refine .inr ⟨by rw [shown, hname, Option.getD_none], ?_⟩
      rintro entry hentry rfl
      simpa using List.lookup_eq_none_iff.mp hname entry hentry

/-- Of the texts with a line break only the line break alone is shown on one line. -/
theorem oneLine_shown_iff {s : String} : OneLine (shown s) ↔ OneLine s ∨ s = "\n" := by
  have hnames : ∀ entry ∈ whitespaceNames,
      OneLine entry.2 ∧ (OneLine entry.1 ∨ entry.1 = "\n") := by decide
  obtain ⟨entry, hentry, rfl, hshown⟩ | ⟨hshown, hother⟩ := shown_cases s
  · obtain ⟨hname, htext⟩ := hnames entry hentry
    rw [hshown]
    exact iff_of_true hname htext
  · have hbreak : s ≠ "\n" := fun heq => hother ("\n", "line break") (by decide) heq.symm
    rw [hshown, or_iff_left hbreak]

end CharClass

variable {Op : Type}

namespace Value

variable [ToString Op]

/-- Whether a value is shown on one line in a message. -/
def OneLine (v : Value Op) : Prop :=
  ∃ written, v.display = .ok written ∧ Tokenwise.OneLine written

theorem oneLine_text_iff {s : String} :
    (text s : Value Op).OneLine ↔ Tokenwise.OneLine s ∨ s = "\n" := by
  rw [← CharClass.oneLine_shown_iff]
  constructor
  · rintro ⟨written, hwritten, hline⟩
    cases hwritten
    exact hline
  · exact fun hline => ⟨_, rfl, hline⟩

/-- Each token of a text is shown on one line. -/
theorem oneLine_char (c : Char) : (char c : Value Op).OneLine := by
  refine oneLine_text_iff.mpr ?_
  by_cases hbreak : c = '\n'
  · exact .inr (by rw [hbreak]; rfl)
  · exact .inl (by simpa [Tokenwise.OneLine] using Ne.symm hbreak)

theorem exists_displayItems_of_oneLine {vs : List (Value Op)} (h : ∀ v ∈ vs, v.OneLine) :
    ∃ names, displayItems vs = .ok names ∧ ∀ name ∈ names, Tokenwise.OneLine name := by
  induction vs with
  | nil => exact ⟨[], rfl, nofun⟩
  | cons v vs ih =>
      obtain ⟨first, hfirst, hline⟩ := h v List.mem_cons_self
      obtain ⟨names, hnames, hlines⟩ := ih fun w hw => h w (List.mem_cons_of_mem _ hw)
      refine ⟨first :: names, ?_, ?_⟩
      · have hcons : displayItems (v :: vs)
            = v.display >>= fun first => return first :: (← displayItems vs) := by
          cases v <;> rfl
        rw [hcons, hfirst, hnames]
        rfl
      · intro name hname
        obtain rfl | hmore := List.mem_cons.mp hname
        · exact hline
        · exact hlines name hmore

/-- A descriptor reads as one line if its items do. -/
theorem exists_plainDescriptor_of_oneLine {d : Descriptor (Value Op)}
    (h : ∀ item ∈ d.items, item.OneLine) :
    ∃ written, plainDescriptor d = .ok written ∧ Tokenwise.OneLine written := by
  have hend : Tokenwise.OneLine "end of input" := by decide
  have hnone : Tokenwise.OneLine "none of " := by decide
  have hempty : Tokenwise.OneLine "" := by decide
  obtain ⟨names, hnames, hlines⟩ := exists_displayItems_of_oneLine h
  rcases d with ⟨kind, items⟩
  cases kind with
  | oneOf =>
      refine ⟨Listing.alternatives "end of input" names, ?_,
        Listing.oneLine_alternatives hend hlines⟩
      rw [plainDescriptor, hnames]
      rfl
  | noneOf =>
      cases items with
      | nil => exact ⟨"anything", rfl, by decide⟩
      | cons item items =>
          refine ⟨"none of " ++ Listing.alternatives "" names, ?_,
            oneLine_append_iff.mpr ⟨hnone, Listing.oneLine_alternatives hempty hlines⟩⟩
          rw [plainDescriptor, hnames]
          · rfl
          · exact nofun

end Value

end Tokenwise
