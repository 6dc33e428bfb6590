import Mathlib.Algebra.GroupWithZero.Nat
import Tokenwise.Failure.Location

/-!
# Positions as lines and columns

A location counts the line feeds in front of a position, and the characters behind the last of
them.  The lines of a text are what stands between its line feeds.  The two fit together
(`Failure.location_inverts_offset`): a location is one of its text, and the lengths of the lines
in front of it give the position back.

A text is cut at a place into the lines that have ended in front of it (`Location.ended`), its own
line up to the place and from it on, and what comes behind that line (`Location.StandsIn`).  The
list of lines and the location can both be read off such a cut.  A position at a line feed belongs
to the line that the line feed ends.
-/

namespace Tokenwise

namespace Location

section Lines

variable {c : Char} {line last : List Char} {earlier : List (List Char)}

/-- Lines, each with the line feed that ends it. -/
def ended (lines : List (List Char)) : List Char := lines.flatMap (· ++ ['\n'])

theorem length_ended (lines : List (List Char)) :
    (ended lines).length = (lines.map fun line => line.length + 1).sum := by
  simp [ended, List.length_flatMap]

theorem count_ended (h : ∀ line ∈ earlier, '\n' ∉ line) :
    (ended earlier).count '\n' = earlier.length := by
  induction earlier with
  | nil => rfl
  | cons line earlier ih =>
      have hline : line.count '\n' = 0 := List.count_eq_zero.mpr (h line List.mem_cons_self)
      have hmore := ih fun other hother => h other (List.mem_cons_of_mem _ hother)
      rw [ended, List.flatMap_cons, ← ended, List.count_append, List.count_append, hline, hmore,
        List.length_cons, List.count_singleton_self]
      omega

/-- A text is lines that have ended, and a last one that has not. -/
theorem exists_ended (cs : List Char) :
    ∃ earlier last, cs = ended earlier ++ last ∧ (∀ line ∈ earlier, '\n' ∉ line) ∧ '\n' ∉ last := by
  induction cs with
  | nil => exact ⟨[], [], rfl, nofun, nofun⟩
  | cons c cs ih =>
      obtain ⟨earlier, last, rfl, hearlier, hlast⟩ := ih
      by_cases hbreak : c = '\n'
      · exact ⟨[] :: earlier, last, by rw [hbreak]; rfl,
          List.forall_mem_cons.mpr ⟨nofun, hearlier⟩, hlast⟩
      · have hnot : ∀ {line : List Char}, '\n' ∉ line → '\n' ∉ c :: line :=
          fun h => List.not_mem_cons_of_ne_of_not_mem (Ne.symm hbreak) h
        cases earlier with
        | nil => exact ⟨[], c :: last, rfl, nofun, hnot hlast⟩
        | cons line earlier =>
            obtain ⟨hline, hmore⟩ := List.forall_mem_cons.mp hearlier
            exact ⟨(c :: line) :: earlier, last, rfl,
              List.forall_mem_cons.mpr ⟨hnot hline, hmore⟩, hlast⟩

/-- A text begins with a line, and a line feed follows it, or nothing. -/
theorem exists_first_line (cs : List Char) :
    ∃ line behind, cs = line ++ behind ∧ '\n' ∉ line ∧ ∀ c ∈ behind.head?, c = '\n' := by
  induction cs with
  | nil => exact ⟨[], [], rfl, nofun, nofun⟩
  | cons c cs ih =>
      by_cases hbreak : c = '\n'
      · exact ⟨[], c :: cs, rfl, nofun, fun d hd => (Option.mem_some.mp hd) ▸ hbreak⟩
      · obtain ⟨line, behind, rfl, hline, hbehind⟩ := ih
        exact ⟨c :: line, behind, rfl,
          List.not_mem_cons_of_ne_of_not_mem (Ne.symm hbreak) hline, hbehind⟩

theorem lines_of_noBreak (h : '\n' ∉ line) : lines line = [line] := by
  induction line with
  | nil => rfl
  | cons c line ih =>
      have hc : c ≠ '\n' := (List.ne_of_not_mem_cons h).symm
      rw [lines, if_neg hc, ih (List.not_mem_of_not_mem_cons h)]

/-- A line feed ends the first line. -/
theorem lines_append_break (h : '\n' ∉ line) (rest : List Char) :
    lines (line ++ '\n' :: rest) = line :: lines rest := by
  induction line with
  | nil => rfl
  | cons c line ih =>
      have hc : c ≠ '\n' := (List.ne_of_not_mem_cons h).symm
      rw [List.cons_append, lines, if_neg hc, ih (List.not_mem_of_not_mem_cons h)]

theorem lines_ended_append (h : ∀ line ∈ earlier, '\n' ∉ line) (rest : List Char) :
    lines (ended earlier ++ rest) = earlier ++ lines rest := by
  induction earlier with
  | nil => rfl
  | cons line earlier ih =>
      obtain ⟨hline, hearlier⟩ := List.forall_mem_cons.mp h
      have htext : ended (line :: earlier) ++ rest = line ++ '\n' :: (ended earlier ++ rest) := by
        simp [ended]
      rw [htext, lines_append_break hline, ih hearlier, List.cons_append]

/-- Lines that have ended end with a line feed, if there are any. -/
theorem eq_break_of_getLast?_ended (h : c ∈ (ended earlier).getLast?) : c = '\n' := by
  obtain rfl | ⟨init, line, rfl⟩ := List.eq_nil_or_concat earlier
  · cases h
  · have htext : ended (init.concat line) = ended init ++ line ++ ['\n'] := by simp [ended]
    rw [htext, List.getLast?_concat] at h
    exact (Option.mem_some.mp h).symm

/-- The last line feed is the one in front of the last line. -/
theorem lastBreak_ended_append (h : '\n' ∉ last) :
    lastBreak (ended earlier ++ last) = (ended earlier).length - 1 := by
  have hlast : ∀ c ∈ last.reverse, decide (c ≠ '\n') = true := by
    intro c hc
    have hne : c ≠ '\n' := fun heq => h (heq ▸ List.mem_reverse.mp hc)
    exact decide_eq_true hne
  have hbreak : (ended earlier).reverse.takeWhile (· ≠ '\n') = [] := by
    cases hreverse : (ended earlier).reverse with
    | nil => rfl
    | cons c rest =>
        have hc : c ∈ (ended earlier).getLast? := by rw [← List.head?_reverse, hreverse]; rfl
        rw [eq_break_of_getLast?_ended hc]
        rfl
  rw [lastBreak, List.reverse_append, List.takeWhile_append_of_pos hlast, hbreak, List.append_nil,
    List.length_reverse, List.length_append]
  omega

end Lines

/-- The lines in front of a place in a text, and its own line, up to the place and from it on.
Behind that line comes a line feed, or nothing. -/
structure StandsIn (cs : List Char) (place : Nat) (earlier : List (List Char))
    (start finish behind : List Char) : Prop where
  text : cs = ended earlier ++ start ++ (finish ++ behind)
  place_eq : place = (ended earlier ++ start).length
  earlier_noBreak : ∀ line ∈ earlier, '\n' ∉ line
  noBreak : '\n' ∉ start ++ finish
  behind_break : ∀ c ∈ behind.head?, c = '\n'

section StandsIn

variable {cs start finish behind : List Char} {place : Nat} {earlier : List (List Char)}

theorem exists_standsIn (h : place ≤ cs.length) :
    ∃ earlier start finish behind, StandsIn cs place earlier start finish behind := by
  obtain ⟨earlier, start, hbefore, hearlier, hstart⟩ := exists_ended (cs.take place)
  obtain ⟨finish, behind, hafter, hfinish, hbehind⟩ := exists_first_line (cs.drop place)
  refine ⟨earlier, start, finish, behind, ?_, ?_, hearlier, ?_, hbehind⟩
  · rw [← hbefore, ← hafter, List.take_append_drop]
  · rw [← hbefore, List.length_take, Nat.min_eq_left h]
  · rw [List.mem_append]
    exact fun hmem => hmem.elim hstart hfinish

namespace StandsIn

variable (h : StandsIn cs place earlier start finish behind)

include h

theorem place_le : place ≤ cs.length := by
  rw [h.place_eq, h.text]
  exact (List.prefix_append _ _).length_le

theorem take_eq : cs.take place = ended earlier ++ start := by
  rw [h.text, h.place_eq, List.take_left]

/-- The line of a place comes after the lines in front of it. -/
theorem exists_lines_eq : ∃ later, lines cs = earlier ++ (start ++ finish) :: later := by
  have htext : cs = ended earlier ++ (start ++ finish ++ behind) := by
    rw [h.text, List.append_assoc, List.append_assoc start]
  rw [htext, lines_ended_append h.earlier_noBreak]
  cases hbehind : behind with
  | nil => exact ⟨[], by rw [List.append_nil, lines_of_noBreak h.noBreak]⟩
  | cons c rest =>
      obtain rfl : c = '\n' := h.behind_break c (by rw [hbehind]; rfl)
      exact ⟨lines rest, by rw [lines_append_break h.noBreak]⟩

/-- The location of a place says how many lines and how many characters are in front of it. -/
theorem ofPosition_eq {position : Int} (hplace : min position cs.length = place) :
    ofPosition cs position = ⟨earlier.length + 1, start.length + 1⟩ := by
  have hle := h.place_le
  have hinside : Slice.place cs.length 0 cs.length place = place :=
    Slice.place_of_inside 0 (by omega) (by omega)
  have hstart : '\n' ∉ start := fun hmem => h.noBreak (List.mem_append_left _ hmem)
  have hcount : (ended earlier ++ start).count '\n' = earlier.length := by
    rw [List.count_append, count_ended h.earlier_noBreak, List.count_eq_zero.mpr hstart,
      Nat.add_zero]
  have hcolumn : (place : Int) - lastBreak (ended earlier ++ start) = start.length + 1 := by
    rw [lastBreak_ended_append hstart, h.place_eq, List.length_append]
    omega
  simp only [ofPosition, hplace, hinside, Int.toNat_natCast, h.take_eq, hcount, hcolumn]

end StandsIn

end StandsIn

section Offset

variable {cs : List Char}

/-- How many characters are in so many lines, the line feeds that end them included. -/
def lineStart (cs : List Char) (count : Nat) : Nat :=
  (((lines cs).take count).map fun line => line.length + 1).sum

theorem lineStart_succ {n : Nat} {line : List Char} (h : (lines cs)[n]? = some line) :
    lineStart cs (n + 1) = lineStart cs n + (line.length + 1) := by
  rw [lineStart, List.take_add_one, h, List.map_append, List.sum_append]
  rfl

theorem lineStart_mono {m n : Nat} (h : m ≤ n) : lineStart cs m ≤ lineStart cs n := by
  obtain ⟨k, rfl⟩ := Nat.exists_eq_add_of_le h
  rw [lineStart, lineStart, List.take_add, List.map_append, List.sum_append]
  exact Nat.le_add_right _ _

/-- Whether a location is one of a text, and stands for the offset.  Behind the last character of
a line there is one more column. -/
structure LiesAt (location : Location) (cs : List Char) (offset : Int) : Prop where
  line_pos : 1 ≤ location.line
  line_le : location.line ≤ (lines cs).length
  column_pos : 1 ≤ location.column
  column_le : ∀ line, (lines cs)[location.line - 1]? = some line →
    location.column ≤ line.length + 1
  offset_eq : lineStart cs (location.line - 1) + location.column - 1 = offset

/-- Whether a location comes before another one, by its line or else by its column. -/
def Precedes (location other : Location) : Prop :=
  location.line < other.line ∨ location.line = other.line ∧ location.column < other.column

/-- The lines of a text have one end after another, so later offsets have later locations. -/
theorem LiesAt.precedes {location other : Location} {offset further : Int}
    (h : location.LiesAt cs offset) (hother : other.LiesAt cs further) (hlt : offset < further) :
    location.Precedes other := by
  have hoffset := h.offset_eq
  have hfurther := hother.offset_eq
  obtain hless | hsame | hmore := Nat.lt_trichotomy location.line other.line
  · exact .inl hless
  · rw [hsame] at hoffset
    exact .inr ⟨hsame, by omega⟩
  · -- then the whole line of the further offset would be in front
    have hpos := hother.line_pos
    have hinside : other.line - 1 < (lines cs).length := by
      have hle := hother.line_le
      omega
    have hline := List.getElem?_eq_getElem hinside
    have hcolumn := hother.column_le _ hline
    have hsucc := lineStart_succ hline
    have hmono : lineStart cs (other.line - 1 + 1) ≤ lineStart cs (location.line - 1) :=
      lineStart_mono (by omega)
    have hfirst := h.column_pos
    omega

theorem StandsIn.liesAt {place : Nat} {earlier : List (List Char)} {start finish behind : List Char}
    (h : StandsIn cs place earlier start finish behind) {position : Int}
    (hplace : min position cs.length = place) : (ofPosition cs position).LiesAt cs place := by
  obtain ⟨later, hlines⟩ := h.exists_lines_eq
  rw [h.ofPosition_eq hplace]
  refine ⟨Nat.succ_pos _, ?_, ?_, fun line hline => ?_, ?_⟩
  · simp only [hlines, List.length_append, List.length_cons]
    omega
  · simp only
    omega
  · have hown : line = start ++ finish := by
      simpa [hlines] using hline.symm
    simp only [hown, List.length_append]
    omega
  · have hfront : lineStart cs earlier.length = (ended earlier).length := by
      rw [lineStart, hlines, List.take_left, length_ended]
    simp only [Nat.add_sub_cancel, hfront, h.place_eq, List.length_append]
    omega

/-- A position in a text has a location that stands for it. -/
theorem ofPosition_liesAt {position : Int} (hstart : 0 ≤ position) (hend : position ≤ cs.length) :
    (ofPosition cs position).LiesAt cs position := by
  obtain ⟨place, rfl⟩ := Int.eq_ofNat_of_zero_le hstart
  obtain ⟨earlier, start, finish, behind, hstands⟩ := exists_standsIn (Int.ofNat_le.mp hend)
  exact hstands.liesAt (Int.min_eq_left hend)

end Offset

end Location

namespace Failure

variable {α : Type} {cs : List Char} {failure other : Failure α}

theorem location_of_text (htext : failure.text? = some cs) :
    failure.location = some (Location.ofPosition cs failure.position) := by
  rw [location, htext]
  rfl

/-- **A location is an exact inverse of the offset.**  A failure in a text has a location, which
is a line and a column of this text.  The characters in the lines in front, line feeds included,
and those in front of the column are as many as the position says.  So different positions have
different locations, and a later position has one that comes later. -/
theorem location_inverts_offset (htext : failure.text? = some cs) (hstart : 0 ≤ failure.position)
    (hend : failure.position ≤ cs.length) (hothertext : other.text? = some cs)
    (hotherstart : 0 ≤ other.position) (hotherend : other.position ≤ cs.length) :
    ∃ location place, failure.location = some location ∧ other.location = some place
      ∧ location.LiesAt cs failure.position
      ∧ (failure.position ≠ other.position → location ≠ place)
      ∧ (failure.position < other.position → location.Precedes place) := by
  have hlocation := Location.ofPosition_liesAt hstart hend
  have hplace := Location.ofPosition_liesAt hotherstart hotherend
  refine ⟨_, _, location_of_text htext, location_of_text hothertext, hlocation,
    fun hne heq => hne ?_, hlocation.precedes hplace⟩
  rw [← hlocation.offset_eq, ← hplace.offset_eq, heq]

/-- Two line feeds, one behind a carriage return and one on a line of its own. -/
theorem line_feeds_located :
    let cs := ['a', 'b', '\r', '\n', '\n', 'c']
    let first : Failure Char :=
      { expected := .unknown, actual := '\n', remainder := ⟨.whole (.text cs), 3⟩ }
    let second : Failure Char :=
      { expected := .unknown, actual := '\n', remainder := ⟨.whole (.text cs), 4⟩ }
    first.text? = some cs ∧ second.text? = some cs
      ∧ 0 ≤ first.position ∧ first.position < second.position ∧ second.position ≤ cs.length
      ∧ first.location = some ⟨1, 4⟩ ∧ second.location = some ⟨2, 1⟩
      ∧ Location.LiesAt ⟨1, 4⟩ cs 3 ∧ Location.Precedes ⟨1, 4⟩ ⟨2, 1⟩ := by
  intro cs first second
  have hfirst : first.location = some ⟨1, 4⟩ := by decide
  have hsecond : second.location = some ⟨2, 1⟩ := by decide
  have htext : first.text? = some cs := rfl
  have hothertext : second.text? = some cs := rfl
  obtain ⟨location, place, hlocation, hplace, hlies, -, hprecedes⟩ :=
    location_inverts_offset htext (by decide) (by decide) hothertext (by decide) (by decide)
  rw [hfirst] at hlocation
  rw [hsecond] at hplace
  cases hlocation
  cases hplace
  exact ⟨htext, hothertext, by decide, by decide, by decide, hfirst, hsecond, hlies,
    hprecedes (by decide)⟩

end Failure

end Tokenwise
