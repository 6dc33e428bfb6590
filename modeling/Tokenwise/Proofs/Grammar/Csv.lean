import Tokenwise.Callable.Stock
import Tokenwise.Grammar.Definitions
import Tokenwise.Proofs.Grammar.Separated

/-!
# Tables of cells, separated by commas

A table is written row by row, with line breaks between the rows and commas between the cells
of a row.  A cell stands in quotes or bare.  In quotes it may contain all but a quote; bare it
must contain neither a comma nor a line break, and must not begin with a quote.  A `Csv.Cell`
is a text together with a form that allows it.

What is written is read back (`Definitions.table_of_written`), whatever the forms of the
cells.  Cells may be empty, but a row has at least one cell, and a table one row.  The choice
between the two forms commits on the opening quote.  Where a bare cell stands, a quoted one is
refused at once: the cell begins with something else than a quote, or it is empty and a
separator follows or the end.
-/

namespace Tokenwise

namespace Csv

/-- Whether a cell stands in quotes. -/
inductive Form where
  | quoted
  | bare
  deriving DecidableEq, Repr

/-- Whether a text may be written in this form. -/
def Form.Allows : Form → List Char → Prop
  | quoted, chars => '"' ∉ chars
  | bare, chars => ',' ∉ chars ∧ '\n' ∉ chars ∧ chars.head? ≠ some '"'

instance (form : Form) (chars : List Char) : Decidable (form.Allows chars) :=
  match form with
  | .quoted => inferInstanceAs (Decidable ('"' ∉ chars))
  | .bare => inferInstanceAs (Decidable (',' ∉ chars ∧ '\n' ∉ chars ∧ chars.head? ≠ some '"'))

/-- A text and how it is written. -/
structure Cell where
  content : String
  form : Form
  allowed : form.Allows content.toList

def Cell.write (cell : Cell) : List Char :=
  match cell.form with
  | .quoted => ['"'] ++ cell.content.toList ++ ['"']
  | .bare => cell.content.toList

def writeRow (cells : List Cell) : List Char :=
  [','].intercalate (cells.map Cell.write)

def write (rows : List (List Cell)) : List Char :=
  ['\n'].intercalate (rows.map writeRow)

variable {Op : Type}

def Cell.value (cell : Cell) : Value Op := .text cell.content

def rowValue (cells : List Cell) : Value Op := .list (cells.map Cell.value)

/-- Whether a bare cell ends before the tokens: a separator follows, or nothing. -/
def EndsCell (rest : List (Value Op)) : Prop :=
  ∀ v, rest.head? = some v → v = .char ',' ∨ v = .char '\n'

variable [Operations Op]

section Grammars

open Grammar

def quotedCell : Grammar Op :=
  ((token (.char '"')).keepRight ((notToken (.char '"')).repeated .any).join).keepLeft
    (token (.char '"'))

def bareCell : Grammar Op :=
  ((noneOf [.char ',', .char '\n']).repeated .any).join

def cell : Grammar Op := quotedCell.orElse bareCell

def row : Grammar Op := cell.separated (.char ',')

def table : Grammar Op := row.separated (.char '\n')

end Grammars

variable {scope : String → Run Op (Parser Op)} {limit : Nat} {rest : List (Value Op)}

section Cells

/-- A repeated matcher takes the characters that pass its test, up to the first token that
does not. -/
theorem takes_chars {test : Value Op → Bool} {kind : Descriptor.Kind} {labels : List (Value Op)}
    {chars : List Char} (hchars : ∀ c ∈ chars, test (.char c) = true)
    (hrest : ∀ v, rest.head? = some v → test v = false) (hlimit : chars.length < limit) :
    ((Parser.satisfying test kind labels).repeated .any limit).join.Takes (chars.map .char) rest
      (.text (String.ofList chars)) := by
  have hloop : ((Parser.satisfying test kind labels).repeated .any limit).Takes
      (chars.flatMap fun c => [.char c]) rest (.list (chars.map .char)) := by
    refine Parser.Takes.repeated (fun c hc after => Parser.takes_satisfying (hchars c hc) after)
      (fun c _ => List.cons_ne_nil _ _) (Parser.refuses_satisfying hrest) ?_
    rwa [← List.map_eq_flatMap, List.length_map]
  rw [← List.map_eq_flatMap] at hloop
  exact hloop.map (Run.liftM_ending_eq_done.mpr (Value.joined_chars chars))

theorem takes_quotedCell {chars : List Char} (hallowed : Form.quoted.Allows chars)
    (hlimit : chars.length < limit) (rest : List (Value Op)) :
    (quotedCell.parser scope limit).Takes ((['"'] ++ chars ++ ['"']).map .char) rest
      (.text (String.ofList chars)) := by
  have hquote : ((Value.char '"' : Value Op) == .char '"') = true := by
    rw [Value.char_beq_char, beq_self_eq_true]
  have hcontent : ((Parser.notToken (.char '"')).repeated .any limit).join.Takes (chars.map .char)
      (.char '"' :: rest) (.text (String.ofList chars)) := by
    refine takes_chars (fun c hc => ?_) (fun v hv => ?_) hlimit
    · have hne : c ≠ '"' := fun h => hallowed (h ▸ hc)
      rw [bne, Value.char_beq_char, beq_false_of_ne hne, Bool.not_false]
    · rw [← Option.some.inj hv, bne, hquote, Bool.not_true]
  rw [List.map_append, List.map_append, List.map_singleton]
  exact ((Parser.takes_token (.char '"') _).keepRight hcontent).keepLeft
    (Parser.takes_token (.char '"') rest)

theorem takes_bareCell {chars : List Char} (hallowed : Form.bare.Allows chars)
    (hlimit : chars.length < limit) (hrest : EndsCell rest) :
    (bareCell.parser scope limit).Takes (chars.map .char) rest (.text (String.ofList chars)) := by
  obtain ⟨hcomma, hbreak, -⟩ := hallowed
  refine takes_chars (fun c hc => ?_) (fun v hv => ?_) hlimit
  · have hnocomma : c ≠ ',' := fun h => hcomma (h ▸ hc)
    have hnobreak : c ≠ '\n' := fun h => hbreak (h ▸ hc)
    simp [List.contains_cons, hnocomma, hnobreak]
  · rcases hrest v hv with rfl | rfl <;> simp [List.contains_cons]

/-- Where a bare cell stands, there is no quoted one. -/
theorem quotedCell_refuses_bare {chars : List Char} (hallowed : Form.bare.Allows chars)
    (hrest : EndsCell rest) :
    (quotedCell.parser scope limit).Refuses (chars.map .char ++ rest) 0 := by
  obtain ⟨-, -, hquote⟩ := hallowed
  have hopening : (Parser.token (.char '"')).Refuses (chars.map .char ++ rest) 0 := by
    refine Parser.refuses_token fun v hv => ?_
    cases chars with
    | nil =>
        -- an empty cell: what ends it is not a quote
        rcases hrest v hv with rfl | rfl <;> simp
    | cons c chars =>
        have hne : c ≠ '"' := fun h => hquote (congrArg some h)
        rw [← Option.some.inj hv, Value.char_beq_char, beq_false_of_ne hne]
  exact (hopening.keepRight _).keepLeft _

theorem takes_cell (x : Cell) (hlimit : x.write.length < limit) (hrest : EndsCell rest) :
    (cell.parser scope limit).Takes (x.write.map .char) rest x.value := by
  obtain ⟨content, form, hallowed⟩ := x
  have hvalue : (Value.text content : Value Op) = .text (String.ofList content.toList) := by
    rw [String.ofList_toList]
  rw [Cell.value, hvalue]
  cases form with
  | quoted =>
      have hshorter : content.toList.length < limit := by
        simp only [Cell.write, List.length_append] at hlimit
        omega
      exact (takes_quotedCell hallowed hshorter rest).orElse _
  | bare =>
      exact (quotedCell_refuses_bare hallowed hrest).orElse_takes
        (takes_bareCell hallowed hlimit hrest)

end Cells

section Rows

/-- A row is taken up to a line break or the end. -/
theorem takes_row {cells : List Cell} (hcells : cells ≠ [])
    (hlimit : (writeRow cells).length < limit)
    (hrest : ∀ v, rest.head? = some v → v = .char '\n') :
    (row.parser scope limit).Takes ((writeRow cells).map .char) rest (rowValue cells) := by
  have hlength : ∀ x ∈ cells, x.write.length < limit := by
    intro x hx
    have hle : x.write.length ≤ (writeRow cells).length := length_le_of_mem_intercalate hx
    exact Nat.lt_of_le_of_lt hle hlimit
  have hends : EndsCell rest := fun v hv => .inr (hrest v hv)
  rw [writeRow, map_intercalate]
  refine Parser.Takes.separated hcells (fun x hx after => ?_)
    (fun x hx => takes_cell x (hlength x hx) hends) (fun v hv => ?_) ?_
  · exact takes_cell x (hlength x hx) fun v hv => .inl (Option.some.inj hv).symm
  · rw [hrest v hv, Value.char_beq_char]
    rfl
  · rwa [← map_intercalate, List.length_map]

theorem takes_table {rows : List (List Cell)} (hrows : rows ≠ [])
    (hcells : ∀ cells ∈ rows, cells ≠ []) (hlimit : (write rows).length < limit) :
    (table.parser scope limit).Takes ((write rows).map .char) []
      (.list (rows.map rowValue)) := by
  have hlength : ∀ cells ∈ rows, (writeRow cells).length < limit := by
    intro cells hmem
    have hle : (writeRow cells).length ≤ (write rows).length := length_le_of_mem_intercalate hmem
    exact Nat.lt_of_le_of_lt hle hlimit
  rw [write, map_intercalate]
  refine Parser.Takes.separated hrows (fun cells hmem after => ?_)
    (fun cells hmem => takes_row (hcells cells hmem) (hlength cells hmem) nofun) nofun ?_
  · exact takes_row (hcells cells hmem) (hlength cells hmem) fun v hv => (Option.some.inj hv).symm
  · rwa [← map_intercalate, List.length_map]

end Rows

end Csv

namespace Definitions

variable {Op : Type} [Operations Op]

/-- **A written table is read back.**  A table of at least one row, and of at least one cell
in each row, is parsed to the texts of its cells, whatever form each of them is written in. -/
theorem table_of_written (definitions : Definitions Op) {rows : List (List Csv.Cell)}
    (hrows : rows ≠ []) (hcells : ∀ cells ∈ rows, cells ≠ []) {limit : Nat}
    (hlimit : (Csv.write rows).length < limit) :
    ((definitions.parser limit Csv.table).parse (.whole (.text (Csv.write rows)))).ending
      = .done (.output (.list (rows.map fun cells =>
          .list (cells.map fun cell => .text cell.content)))) :=
  (Csv.takes_table hrows hcells hlimit).parse rfl

/-- A comma and a line break in quotes, a quote inside of a bare cell, and nothing. -/
def mixedTable : List (List Csv.Cell) :=
  [[⟨"a,b", .quoted, by decide⟩, ⟨"", .bare, by decide⟩],
    [⟨"line\nbreak", .quoted, by decide⟩, ⟨"say \"x\"", .bare, by decide⟩]]

theorem mixed_table_of_written :
    mixedTable ≠ [] ∧ (∀ cells ∈ mixedTable, cells ≠ []) ∧ (Csv.write mixedTable).length < 28 ∧
      ((({} : Definitions Stock).parser 28 Csv.table).parse
        (.whole (.text "\"a,b\",\n\"line\nbreak\",say \"x\"".toList))).ending
        = .done (.output (.list [.list [.text "a,b", .text ""],
            .list [.text "line\nbreak", .text "say \"x\""]])) :=
  ⟨by decide, by decide, by decide,
    table_of_written {} (by decide : mixedTable ≠ []) (by decide) (by decide)⟩

end Definitions

end Tokenwise
