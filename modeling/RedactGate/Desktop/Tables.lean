import RedactGate.Desktop.Formats

/-!
# Cells of tables

A table is read as a document of fields, and its cells are where the fields are written.
-/
namespace RedactGate.Desktop

open Library Library.Delimited

/-- A character between cells that is neither a quote nor a line break. -/
def IsDelimiter (delim : Char) : Prop := delim ≠ '"' ∧ delim ≠ '\n' ∧ delim ≠ '\r'

/-- The values of the cells in their order. -/
def values (text : Text) (delim : Char) : List Text :=
  (csvCells text delim).flatten.map (CsvHandler.cell text)

/-! ## Reading documents -/

/-- Where the cell of a field is that is written at an offset. -/
def cellAt (pos : Nat) : Field → Cell
  | .plain value => ⟨pos, pos + value.length, false⟩
  | .quoted value _ => ⟨pos + 1, pos + 1 + (escape value).length, true⟩

/-- The cells of a document that is written from an offset on, field by field, without regard to the
rows that they are in. -/
def cellsFrom (delim : Char) (pos : Nat) : Document → List Cell
  | .last field => [cellAt pos field]
  | .closing field _ => [cellAt pos field]
  | .cons field separator rest =>
    cellAt pos field ::
      cellsFrom delim (pos + field.print.length + (separator.print delim).length) rest

/-- What stands behind the text of a quoted field. -/
def closingOf : Option Text → Text
  | none => []
  | some trailer => '"' :: trailer

theorem print_quoted (value : Text) (trailer : Option Text) :
    (Field.quoted value trailer).print = ['"'] ++ (escape value ++ closingOf trailer) := by
  cases trailer with
  | none => exact congrArg ('"' :: ·) (List.append_nil _).symm
  | some trailer => rfl

/-- The same cells in their rows, with the row so far: a delimiter goes on with the row, and a line
break begins another one. -/
def rowsFrom (delim : Char) (pos : Nat) (row : List Cell) : Document → List (List Cell)
  | .last field => [row ++ [cellAt pos field]]
  | .closing field _ => [row ++ [cellAt pos field]]
  | .cons field separator rest =>
    let next := pos + field.print.length + (separator.print delim).length
    if separator = .delimiter then rowsFrom delim next (row ++ [cellAt pos field]) rest
    else (row ++ [cellAt pos field]) :: rowsFrom delim next [] rest

theorem flatten_rowsFrom (delim : Char) (pos : Nat) (row : List Cell) (doc : Document) :
    (rowsFrom delim pos row doc).flatten = row ++ cellsFrom delim pos doc := by
  induction doc generalizing pos row with
  | last field => simp [rowsFrom, cellsFrom]
  | closing field newline => simp [rowsFrom, cellsFrom]
  | cons field separator rest ih =>
    rw [rowsFrom, cellsFrom]
    split
    · rw [ih, List.append_assoc, List.singleton_append]
    · rw [List.flatten_cons, ih, List.append_assoc, List.singleton_append, List.nil_append]

theorem length_rowsFrom (delim : Char) (pos : Nat) (row : List Cell) (doc : Document) :
    (rowsFrom delim pos row doc).length = doc.rows := by
  induction doc generalizing pos row with
  | last field => rfl
  | closing field newline => rfl
  | cons field separator rest ih =>
    rw [rowsFrom, Document.rows]
    split
    · exact ih _ _
    · rw [List.length_cons, ih]

theorem length_cellsFrom (delim : Char) (pos : Nat) (doc : Document) :
    (cellsFrom delim pos doc).length = doc.fields.length := by
  induction doc generalizing pos with
  | last field => rfl
  | closing field newline => rfl
  | cons field separator rest ih => exact congrArg (· + 1) (ih _)

/-- The numbers of cells in the rows of a document do not depend on what is written in its fields,
nor on where it begins. -/
theorem map_length_rowsFrom (delim : Char) {pos pos' : Nat} {row row' : List Cell}
    (same : row.length = row'.length) (f : Nat → Field → Field) (k : Nat) (doc : Document) :
    (rowsFrom delim pos row doc).map List.length =
      (rowsFrom delim pos' row' (doc.mapFields f k)).map List.length := by
  induction doc generalizing pos pos' row row' k with
  | last field => simp [rowsFrom, Document.mapFields, same]
  | closing field newline => simp [rowsFrom, Document.mapFields, same]
  | cons field separator rest ih =>
    rw [rowsFrom, Document.mapFields, rowsFrom]
    split
    · exact ih (by rw [List.length_append, List.length_append, same]; rfl) _
    · rw [List.map_cons, List.map_cons, ih rfl, List.length_append, List.length_append, same]
      rfl

theorem plainLen_append {delim : Char} {value after : Text}
    (plain : ∀ c ∈ value, isSeparator delim c = false)
    (stop : after = [] ∨ ∃ c more, after = c :: more ∧ isSeparator delim c = true) :
    plainLen delim (value ++ after) = value.length := by
  have kept : ∀ c ∈ value, (!isSeparator delim c) = true := by simpa using plain
  rw [plainLen, List.takeWhile_append_of_pos kept, List.length_append]
  rcases stop with rfl | ⟨c, more, rfl, separates⟩
  · rfl
  · rw [List.takeWhile_cons_of_neg (by simp [separates])]
    rfl

/-- What stands behind a field: nothing, or a separator. -/
def Follows (delim : Char) (field : Field) (after : Text) : Prop :=
  after = [] ∧ field.Final delim ∨
    field.Closed delim ∧ ∃ c more, after = c :: more ∧ isSeparator delim c = true

theorem ne_quote_of_isSeparator {delim : Char} (isDelim : IsDelimiter delim) {c : Char}
    (separates : isSeparator delim c = true) : c ≠ '"' := by
  rintro rfl
  simp only [isSeparator, Bool.or_eq_true, decide_eq_true_eq] at separates
  rcases separates with (same | same) | same
  · exact isDelim.1 same.symm
  · cases same
  · cases same

/-- A plain value that is harmless does not start with a quote, even together with the separator
behind the field. -/
theorem head?_append_ne_quote {delim : Char} (isDelim : IsDelimiter delim) {value after : Text}
    (harmless : Field.Harmless delim value)
    (stop : after = [] ∨ ∃ c more, after = c :: more ∧ isSeparator delim c = true) :
    (value ++ after).head? ≠ some '"' := by
  cases value with
  | nil =>
    rcases stop with rfl | ⟨c, more, rfl, separates⟩
    · simp
    · simpa using ne_quote_of_isSeparator isDelim separates
  | cons c value => simpa using harmless.2

theorem readCell_plain {delim : Char} (isDelim : IsDelimiter delim) {value before after : Text}
    (harmless : Field.Harmless delim value)
    (stop : after = [] ∨ ∃ c more, after = c :: more ∧ isSeparator delim c = true) :
    readCell (before ++ (value ++ after)) delim before.length =
      (⟨before.length, before.length + value.length, false⟩, before.length + value.length) := by
  have opening : (before ++ (value ++ after))[before.length]? ≠ some '"' := by
    rw [List.getElem?_append_right (Nat.le_refl _), Nat.sub_self, ← List.head?_eq_getElem?]
    exact head?_append_ne_quote isDelim harmless stop
  rw [readCell, if_neg opening, List.drop_left, plainLen_append harmless.1 stop]

/-- A quoted cell is read up to its closing quote, with the doubled quotes inside it; what stands
between that quote and the next separator is passed over. -/
theorem readCell_quoted (delim : Char) (value before : Text) {tail : Text}
    (stop : tail = [] ∨ ∃ more, tail = '"' :: more ∧ more.head? ≠ some '"') :
    readCell (before ++ '"' :: (escape value ++ tail)) delim before.length =
      (⟨before.length + 1, before.length + 1 + (escape value).length, true⟩,
        before.length + 1 + (escape value).length + 1 + plainLen delim (tail.drop 1)) := by
  have opening : (before ++ '"' :: (escape value ++ tail))[before.length]? = some '"' := by
    rw [List.getElem?_append_right (Nat.le_refl _), Nat.sub_self]
    rfl
  have body : (before ++ '"' :: (escape value ++ tail)).drop (before.length + 1) =
      escape value ++ tail := by
    rw [← List.drop_drop, List.drop_left]
    rfl
  have behind : (before ++ '"' :: (escape value ++ tail)).drop
      (before.length + 1 + (escape value).length + 1) = tail.drop 1 := by
    rw [← List.drop_drop, ← List.drop_drop, body, List.drop_left]
  rw [readCell, if_pos opening, body, quotedLen_escape value stop]
  simp only [behind]

/-- A field that a separator or the end of the text follows is read as it is written, and the reader
goes on at the separator, or it is at the end. -/
theorem readCell_print {delim : Char} (isDelim : IsDelimiter delim) (before : Text)
    {field : Field} {after : Text} (follows : Follows delim field after) :
    (readCell (before ++ (field.print ++ after)) delim before.length).1 =
        cellAt before.length field ∧
      (after = [] → (before ++ (field.print ++ after)).length ≤
        (readCell (before ++ (field.print ++ after)) delim before.length).2) ∧
      (after ≠ [] → (readCell (before ++ (field.print ++ after)) delim before.length).2 =
        before.length + field.print.length) := by
  have stop : after = [] ∨ ∃ c more, after = c :: more ∧ isSeparator delim c = true :=
    follows.imp And.left And.right
  cases field with
  | plain value =>
    have harmless : Field.Harmless delim value := by
      rcases follows with ⟨_, final⟩ | ⟨closed, _⟩
      · exact final
      · exact closed
    rw [Field.print, readCell_plain isDelim harmless stop]
    refine ⟨rfl, ?_, fun _ => rfl⟩
    rintro rfl
    simp
  | quoted value trailer =>
    cases trailer with
    | none =>
      -- an open quote takes the rest of the text
      rcases follows with ⟨rfl, _⟩ | ⟨closed, _⟩
      · have read := readCell_quoted delim value before (.inl rfl)
        rw [List.append_nil] at read
        rw [Field.print, List.append_nil, read]
        refine ⟨rfl, fun _ => ?_, fun some => absurd rfl some⟩
        simp only [List.length_append, List.length_cons]
        omega
      · exact closed.elim
    | some trailer =>
      have harmless : Field.Harmless delim trailer := by
        rcases follows with ⟨_, final⟩ | ⟨closed, _⟩
        · exact final
        · exact closed
      have read := readCell_quoted delim value before
        (.inr ⟨_, rfl, head?_append_ne_quote isDelim harmless stop⟩)
      have behind : ('"' :: (trailer ++ after)).drop 1 = trailer ++ after := rfl
      rw [behind, plainLen_append harmless.1 stop] at read
      have print : before ++ ((Field.quoted value (some trailer)).print ++ after) =
          before ++ '"' :: (escape value ++ '"' :: (trailer ++ after)) := by
        simp [Field.print]
      have length : (Field.quoted value (some trailer)).print.length =
          1 + (escape value).length + 1 + trailer.length := by
        simp only [Field.print, List.length_cons, List.length_append]
        omega
      rw [print, read, length]
      refine ⟨rfl, ?_, fun _ => by omega⟩
      rintro rfl
      simp only [List.length_append, List.length_cons, List.append_nil]
      omega

theorem Separator.exists_print (delim : Char) (separator : Separator) :
    ∃ c more, separator.print delim = c :: more ∧ isSeparator delim c = true := by
  cases separator with
  | delimiter => exact ⟨delim, [], rfl, by simp [isSeparator]⟩
  | lineFeed => exact ⟨'\n', [], rfl, by simp [isSeparator]⟩
  | carriageReturn => exact ⟨'\r', [], rfl, by simp [isSeparator]⟩
  | crlf => exact ⟨'\r', ['\n'], rfl, by simp [isSeparator]⟩

theorem follows_separator {delim : Char} {field : Field} (closed : field.Closed delim)
    (separator : Separator) (rest : Text) :
    Follows delim field (separator.print delim ++ rest) := by
  obtain ⟨c, more, print, separates⟩ := Separator.exists_print delim separator
  exact .inr ⟨closed, c, more ++ rest, by rw [print]; rfl, separates⟩

/-- One round of the loop at a field that a separator follows: the row goes on behind a
delimiter and ends at a line break. -/
theorem csvLoop_separator {delim : Char} (isDelim : IsDelimiter delim) {field : Field}
    (closed : field.Closed delim) {separator : Separator} (before : Text) {rest : Text}
    (clear : separator = .carriageReturn → rest.head? ≠ some '\n') (fuel : Nat) (row : List Cell) :
    csvLoop (before ++ (field.print ++ (separator.print delim ++ rest))) delim (fuel + 1)
        before.length row =
      if separator = .delimiter then
        csvLoop (before ++ (field.print ++ (separator.print delim ++ rest))) delim fuel
          (before.length + field.print.length + (separator.print delim).length)
          (row ++ [cellAt before.length field])
      else (row ++ [cellAt before.length field]) :: if rest = [] then []
        else csvLoop (before ++ (field.print ++ (separator.print delim ++ rest))) delim fuel
          (before.length + field.print.length + (separator.print delim).length) [] := by
  obtain ⟨read, _, next⟩ := readCell_print isDelim before
    (follows_separator closed separator rest)
  obtain ⟨c, more, print, separates⟩ := Separator.exists_print delim separator
  have later := next (by rw [print]; exact List.cons_ne_nil _ _)
  have at_i (j : Nat) : (before ++ (field.print ++ (separator.print delim ++ rest)))[
      before.length + field.print.length + j]? = (separator.print delim ++ rest)[j]? := by
    rw [← List.append_assoc, ← List.length_append,
      List.getElem?_append_right (Nat.le_add_right _ _), Nat.add_sub_cancel_left]
  have inside : ¬(before ++ (field.print ++ (separator.print delim ++ rest))).length ≤
      before.length + field.print.length := by
    rw [print]
    simp only [List.length_append, List.length_cons]
    omega
  have at_zero := at_i 0
  rw [Nat.add_zero] at at_zero
  rw [csvLoop]
  simp only [read, later, inside, if_false, at_zero, at_i 1]
  by_cases same : separator = .delimiter
  · subst same
    simp only [Separator.print, List.cons_append, List.getElem?_cons_zero, if_true]
    rfl
  · have line : (separator.print delim ++ rest)[0]? ≠ some delim := by
      cases separator with
      | delimiter => exact absurd rfl same
      | lineFeed => simpa [Separator.print] using isDelim.2.1.symm
      | carriageReturn => simpa [Separator.print] using isDelim.2.2.symm
      | crlf => simpa [Separator.print] using isDelim.2.2.symm
    -- the line feed behind a carriage return belongs to the line break
    have width : (if (separator.print delim ++ rest)[0]? = some '\r' ∧
          (separator.print delim ++ rest)[1]? = some '\n'
        then before.length + field.print.length + 2 else before.length + field.print.length + 1) =
        before.length + field.print.length + (separator.print delim).length := by
      cases separator with
      | delimiter => exact absurd rfl same
      | lineFeed => simp [Separator.print]
      | carriageReturn =>
        have alone : rest[0]? ≠ some '\n' := List.head?_eq_getElem? ▸ clear rfl
        simp [Separator.print, alone]
      | crlf => simp [Separator.print]
    have ends : before.length + field.print.length + (separator.print delim).length =
        (before ++ (field.print ++ (separator.print delim ++ rest))).length ↔ rest = [] := by
      rw [List.length_append, List.length_append, List.length_append, ← List.length_eq_zero_iff]
      omega
    rw [if_neg line, if_neg same, width]
    simp only [ends]

/-- The loop finds the rows of a well-formed document, by induction on the document; fuel beyond the
length of the text makes no difference. -/
theorem csvLoop_print {delim : Char} (isDelim : IsDelimiter delim) {doc : Document}
    (wellFormed : doc.WellFormed delim) (before : Text) {row : List Cell} {fuel : Nat}
    (enough : (doc.print delim).length < fuel) :
    csvLoop (before ++ doc.print delim) delim fuel before.length row =
      rowsFrom delim before.length row doc := by
  -- one round for each cell: every separator takes at least one character
  obtain ⟨fuel, rfl⟩ : ∃ n, fuel = n + 1 := ⟨fuel - 1, by omega⟩
  induction doc generalizing before row fuel with
  | last field =>
    have follows : Follows delim field [] := .inl ⟨rfl, wellFormed⟩
    obtain ⟨read, ends, _⟩ := readCell_print isDelim before follows
    rw [List.append_nil] at read ends
    rw [Document.print, csvLoop]
    simp only [read, if_pos (ends rfl)]
    rfl
  | closing field newline =>
    obtain ⟨closed, line⟩ := wellFormed
    have clear : newline = .carriageReturn → ([] : Text).head? ≠ some '\n' := fun _ => by simp
    have round := csvLoop_separator isDelim closed before clear fuel row
    -- a line break at the end of the text closes the last row and opens no other one
    rw [List.append_nil, if_neg line, if_pos rfl] at round
    rw [Document.print, round]
    rfl
  | cons field separator rest ih =>
    obtain ⟨closed, clear, some, wellFormed⟩ := wellFormed
    have text_eq : before ++ (field.print ++ (separator.print delim ++ rest.print delim)) =
        before ++ field.print ++ separator.print delim ++ rest.print delim := by simp
    have pos_eq : before.length + field.print.length + (separator.print delim).length =
        (before ++ field.print ++ separator.print delim).length := by
      rw [List.length_append, List.length_append]
    have shorter : (rest.print delim).length < fuel := by
      obtain ⟨c, more, print, _⟩ := Separator.exists_print delim separator
      rw [Document.print, List.length_append, List.length_append, print, List.length_cons] at enough
      omega
    obtain ⟨fuel, rfl⟩ : ∃ n, fuel = n + 1 := ⟨fuel - 1, by omega⟩
    rw [Document.print, List.append_assoc, csvLoop_separator isDelim closed before clear, text_eq,
      rowsFrom, pos_eq]
    -- a delimiter goes on with the row, a line break begins one
    by_cases same : separator = .delimiter
    · rw [if_pos same, if_pos same, ih wellFormed _ fuel shorter]
    · rw [if_neg same, if_neg same, if_neg (some same), ih wellFormed _ fuel shorter]

theorem csvCells_print {delim : Char} (isDelim : IsDelimiter delim) {doc : Document}
    (wellFormed : doc.WellFormed delim) :
    csvCells (doc.print delim) delim = rowsFrom delim 0 [] doc :=
  csvLoop_print isDelim wellFormed [] (Nat.lt_succ_self _)

theorem flatten_csvCells {delim : Char} (isDelim : IsDelimiter delim) {doc : Document}
    (wellFormed : doc.WellFormed delim) :
    (csvCells (doc.print delim) delim).flatten = cellsFrom delim 0 doc := by
  rw [csvCells_print isDelim wellFormed, flatten_rowsFrom, List.nil_append]

/-- The cell that stands for a field has the value of the field: a quoted one is unescaped, and a
plain one is taken as it is. -/
theorem cell_cellAt (field : Field) (before after : Text) :
    CsvHandler.cell (before ++ (field.print ++ after)) (cellAt before.length field) =
      field.value := by
  cases field with
  | plain value =>
    simp only [CsvHandler.cell, cellAt, Field.print, Field.value, Bool.false_eq_true, if_false]
    rw [Text.slice_eq_take_drop, List.drop_left, Nat.add_sub_cancel_left, List.take_left]
  | quoted value trailer =>
    -- behind the opening quote comes the escaped value, whatever follows the closing one
    have body : ∃ rest, before ++ ((Field.quoted value trailer).print ++ after) =
        (before ++ ['"']) ++ (escape value ++ rest) := by
      cases trailer with
      | none => exact ⟨after, by simp [Field.print]⟩
      | some trailer => exact ⟨'"' :: trailer ++ after, by simp [Field.print]⟩
    obtain ⟨rest, text_eq⟩ := body
    have front : before.length + 1 = (before ++ ['"']).length := by simp
    simp only [CsvHandler.cell, cellAt, Field.value, if_true]
    rw [text_eq, front, Text.slice_eq_take_drop, List.drop_left, Nat.add_sub_cancel_left,
      List.take_left, unescape_escape]

theorem map_cell_cellsFrom (delim : Char) (doc : Document) (before : Text) :
    (cellsFrom delim before.length doc).map (CsvHandler.cell (before ++ doc.print delim)) =
      doc.fields.map Field.value := by
  induction doc generalizing before with
  | last field =>
    have value := cell_cellAt field before []
    rw [List.append_nil] at value
    exact congrArg (fun v => [v]) value
  | closing field newline => exact congrArg (fun v => [v]) (cell_cellAt field before _)
  | cons field separator rest ih =>
    have value := cell_cellAt field before (separator.print delim ++ rest.print delim)
    have later := ih (before ++ field.print ++ separator.print delim)
    simp only [List.length_append, List.append_assoc] at later
    rw [cellsFrom, List.map_cons, Document.print, List.append_assoc, value, Nat.add_assoc, later]
    rfl

theorem values_print {delim : Char} (isDelim : IsDelimiter delim) {doc : Document}
    (wellFormed : doc.WellFormed delim) :
    values (doc.print delim) delim = doc.fields.map Field.value := by
  rw [values, flatten_csvCells isDelim wellFormed]
  exact map_cell_cellsFrom delim doc []

/-! ## Where the cells are -/

theorem cellAt_bounds (pos : Nat) (field : Field) : pos ≤ (cellAt pos field).start ∧
    (cellAt pos field).start ≤ (cellAt pos field).stop ∧
      (cellAt pos field).stop ≤ pos + field.print.length := by
  cases field with
  | plain value => exact ⟨Nat.le_refl _, Nat.le_add_right _ _, Nat.le_refl _⟩
  | quoted value trailer =>
    have print := congrArg List.length (print_quoted value trailer)
    simp only [List.length_append, List.length_cons, List.length_nil] at print
    simp only [cellAt]
    omega

theorem cellsFrom_bounds {delim : Char} {doc : Document} {pos : Nat} :
    ∀ c ∈ cellsFrom delim pos doc,
      pos ≤ c.start ∧ c.start ≤ c.stop ∧ c.stop ≤ pos + (doc.print delim).length := by
  induction doc generalizing pos with
  | last field =>
    intro c member
    obtain rfl := List.mem_singleton.mp member
    exact cellAt_bounds pos field
  | closing field newline =>
    intro c member
    obtain rfl := List.mem_singleton.mp member
    obtain ⟨start, width, stop⟩ := cellAt_bounds pos field
    rw [Document.print, List.length_append]
    exact ⟨start, width, by omega⟩
  | cons field separator rest ih =>
    intro c member
    rw [Document.print, List.length_append, List.length_append]
    rcases List.mem_cons.mp member with rfl | member
    · obtain ⟨start, width, stop⟩ := cellAt_bounds pos field
      exact ⟨start, width, by omega⟩
    · obtain ⟨start, width, stop⟩ := ih c member
      exact ⟨by omega, width, by omega⟩

theorem cellsFrom_apart (delim : Char) (doc : Document) (pos : Nat) :
    (cellsFrom delim pos doc).Pairwise fun a b => a.stop < b.start := by
  induction doc generalizing pos with
  | last field => exact List.pairwise_singleton _ _
  | closing field newline => exact List.pairwise_singleton _ _
  | cons field separator rest ih =>
    refine .cons (fun c member => ?_) (ih _)
    obtain ⟨start, _, _⟩ := cellsFrom_bounds c member
    obtain ⟨_, _, stop⟩ := cellAt_bounds pos field
    obtain ⟨d, more, print, _⟩ := Separator.exists_print delim separator
    rw [print, List.length_cons] at start
    omega

end RedactGate.Desktop
