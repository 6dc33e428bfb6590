import Tokenwise.Proofs.Failure.Location

/-!
# The caret under a position

The note on the position of a failure in a text shows a part of the line there, and a caret on a
line of its own.  Up to column 20 this is the start of the line, and further on the part that
begins 19 characters in front of the column.  Either way the part begins so many characters in
front of the position as the caret is indented, so the caret stands under the character at the
position, or right behind the part if the line ends there (`Failure.caret_points_at_position`).
-/

namespace Tokenwise

namespace Location

section Excerpt

variable {location : Location} {n : Nat}

/-- What is left out on the left is what is more than 19 characters in front of the column. -/
theorem excerptStart_of_column (h : location.column = n + 1) : location.excerptStart = n - 19 := by
  rw [excerptStart, h, lastNearColumn]
  split <;> omega

theorem indent_of_column (h : location.column = n + 1) : location.indent = min n 19 := by
  rw [indent, excerptStart_of_column h, h]
  omega

/-- The character under the caret is the one in the column. -/
theorem getElem?_excerpt_indent (h : location.column = n + 1) (cs : List Char) :
    (location.excerpt cs)[location.indent]? = cs[n]? := by
  have hshown : min n 19 < excerptWidth := by
    rw [excerptWidth]
    omega
  have hplace : n - 19 + min n 19 = n := by omega
  rw [excerpt, indent_of_column h, excerptStart_of_column h, List.getElem?_take_of_lt hshown,
    List.getElem?_drop, hplace]

/-- Behind the last character of a line, the caret is right behind the part that is shown. -/
theorem length_excerpt_of_end (h : location.column = n + 1) {line : List Char}
    (hend : line.length = n) : (location.excerpt line).length = location.indent := by
  rw [excerpt, indent_of_column h, excerptStart_of_column h, List.length_take, List.length_drop,
    hend, excerptWidth]
  omega

theorem isInfix_excerpt (location : Location) (line : List Char) : location.excerpt line <:+: line :=
  (List.take_prefix _ _).isInfix.trans (List.drop_suffix _ _).isInfix

end Excerpt

/-- Whether a line of a text, without the line feed that ends it, has a place in it or ends
there. -/
def LineAround (cs line : List Char) (place : Nat) : Prop :=
  ∃ before behind, cs = before ++ line ++ behind ∧ (∀ c ∈ before.getLast?, c = '\n')
    ∧ (∀ c ∈ behind.head?, c = '\n') ∧ '\n' ∉ line
    ∧ before.length ≤ place ∧ place ≤ before.length + line.length

/-- Whether a caret behind so many spaces, below a part of a line, points at a place in a text. -/
structure PointsAt (cs line excerpt : List Char) (spaces place : Nat) : Prop where
  part : excerpt <:+: line
  short : excerpt.length ≤ 40
  noBreak : '\n' ∉ excerpt
  near : spaces ≤ 19
  under_char : ∀ c, cs[place]? = some c → c ≠ '\n' → excerpt[spaces]? = some c
  under_end : (∀ c, cs[place]? = some c → c = '\n') → spaces = excerpt.length

section Pointer

variable {cs start finish behind : List Char} {place : Nat} {earlier : List (List Char)}

namespace StandsIn

variable (h : StandsIn cs place earlier start finish behind)

include h

theorem lineAround : LineAround cs (start ++ finish) place := by
  refine ⟨ended earlier, behind, ?_, fun c hc => eq_break_of_getLast?_ended hc, h.behind_break,
    h.noBreak, ?_, ?_⟩
  · rw [h.text, List.append_assoc, List.append_assoc, List.append_assoc]
  · rw [h.place_eq, List.length_append]
    omega
  · rw [h.place_eq, List.length_append, List.length_append]
    omega

theorem getElem?_place : cs[place]? = (finish ++ behind).head? := by
  rw [h.text, h.place_eq, List.getElem?_append_right (Nat.le_refl _), Nat.sub_self,
    List.head?_eq_getElem?]

/-- A character that is no line feed stands in the line. -/
theorem getElem?_line {c : Char} (hc : cs[place]? = some c) (hbreak : c ≠ '\n') :
    (start ++ finish)[start.length]? = some c := by
  rw [h.getElem?_place] at hc
  rw [List.getElem?_append_right (Nat.le_refl _), Nat.sub_self, ← List.head?_eq_getElem?]
  cases finish with
  | nil => exact absurd (h.behind_break c hc) hbreak
  | cons d finish => exact hc

/-- At a line feed, or at the end of the text, the line ends. -/
theorem finish_eq_nil (hc : ∀ c, cs[place]? = some c → c = '\n') : finish = [] := by
  cases finish with
  | nil => rfl
  | cons d finish =>
      have hd : d = '\n' := hc d h.getElem?_place
      exact absurd (List.mem_append_right _ (hd ▸ List.mem_cons_self)) h.noBreak

/-- The excerpt and the indent at a place are those of a caret that points at it. -/
theorem pointsAt {location : Location} (hcolumn : location.column = start.length + 1) :
    PointsAt cs (start ++ finish) (location.excerpt (start ++ finish)) location.indent place where
  part := isInfix_excerpt location _
  short := List.length_take_le _ _
  noBreak := fun hbreak => h.noBreak ((isInfix_excerpt location _).subset hbreak)
  near := by
    rw [indent_of_column hcolumn]
    exact Nat.min_le_right _ _
  under_char := fun c hc hbreak => by
    rw [getElem?_excerpt_indent hcolumn]
    exact h.getElem?_line hc hbreak
  under_end := fun hc => by
    have hend : (start ++ finish).length = start.length := by
      rw [h.finish_eq_nil hc, List.append_nil]
    exact (length_excerpt_of_end hcolumn hend).symm

end StandsIn

/-- The line that a location names is shown, and the caret on a line of its own. -/
theorem ofList_pointer {location : Location} {line : List Char}
    (hline : (lines cs)[location.line - 1]? = some line) :
    String.ofList (location.pointer cs) = "\n" ++ String.ofList (location.excerpt line) ++ "\n"
      ++ String.ofList (List.replicate location.indent ' ') ++ "^" := by
  have hparts : location.pointer cs = ['\n'] ++ location.excerpt line ++ ['\n']
      ++ List.replicate location.indent ' ' ++ ['^'] := by
    rw [pointer, hline]
    simp only [List.cons_append, List.nil_append, List.append_assoc]
  rw [hparts]
  simp only [String.ofList_append]

end Pointer

end Location

namespace Failure

variable {α : Type} {cs : List Char} {failure : Failure α}

/-- **The caret stands under the position.**  For a failure in a text, past its end included, the
note has a part of the line in question, and below it a caret that points at the position. -/
theorem caret_points_at_position (htext : failure.text? = some cs)
    (hstart : 0 ≤ failure.position) :
    let place := (min failure.position cs.length).toNat
    ∃ location line excerpt spaces, failure.location = some location
      ∧ Location.LineAround cs line place ∧ Location.PointsAt cs line excerpt spaces place
      ∧ failure.note = "At position " ++ toString failure.position
        ++ " (line " ++ toString location.line ++ ", column " ++ toString location.column ++ ")"
        ++ ("\n" ++ String.ofList excerpt ++ "\n" ++ String.ofList (List.replicate spaces ' ')
          ++ "^") := by
  intro place
  -- a position past the end is cut down to the end, as it is for the location
  have hplace : min failure.position cs.length = place := by omega
  have hinside : place ≤ cs.length := by omega
  obtain ⟨earlier, start, finish, behind, hstands⟩ := Location.exists_standsIn hinside
  obtain ⟨later, hlines⟩ := hstands.exists_lines_eq
  have hlocation := hstands.ofPosition_eq hplace
  have hcolumn : (Location.ofPosition cs failure.position).column = start.length + 1 := by
    rw [hlocation]
  have hline : (Location.lines cs)[(Location.ofPosition cs failure.position).line - 1]?
      = some (start ++ finish) := by
    simp [hlocation, hlines]
  refine ⟨_, _, _, _, location_of_text htext, hstands.lineAround, hstands.pointsAt hcolumn, ?_⟩
  rw [note, htext, ← Location.ofList_pointer hline]

/-- The first characters of the second line are left out here. -/
theorem caret_behind_left_out :
    let cs := ['a', '\n'] ++ List.replicate 23 'b' ++ ['c', 'd', '\n']
    let failure : Failure Char :=
      { expected := .unknown, actual := 'c', remainder := ⟨.whole (.text cs), 25⟩ }
    failure.text? = some cs ∧ 0 ≤ failure.position ∧ failure.location = some ⟨2, 24⟩
      ∧ ∃ line excerpt spaces, Location.LineAround cs line 25
        ∧ Location.PointsAt cs line excerpt spaces 25 ∧ excerpt[spaces]? = some 'c'
        ∧ failure.note = "At position 25 (line 2, column 24)"
          ++ ("\n" ++ String.ofList excerpt ++ "\n" ++ String.ofList (List.replicate spaces ' ')
            ++ "^") := by
  intro cs failure
  have hlocated : failure.location = some ⟨2, 24⟩ := by decide
  have htext : failure.text? = some cs := rfl
  have hstart : 0 ≤ failure.position := by decide
  obtain ⟨location, line, excerpt, spaces, hlocation, hline, hcaret, hnote⟩ :=
    caret_points_at_position htext hstart
  rw [hlocated] at hlocation
  cases hlocation
  exact ⟨htext, hstart, hlocated, line, excerpt, spaces, hline, hcaret,
    hcaret.under_char 'c' rfl (by decide), hnote⟩

end Failure

end Tokenwise
