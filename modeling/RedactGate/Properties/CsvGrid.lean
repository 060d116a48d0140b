import RedactGate.Desktop.TableRewriting

/-!
# Rewriting keeps the grid

A table that is written anew has the rows and cells that it had as long as every field is read
as it is written. The writer quotes a new value for a comma, a quote or a line break, not for
another delimiter, and a row of one cell is gone once nothing is written in it.
-/
namespace RedactGate.Desktop

open Library Library.Delimited

section

variable (headerCategory : Text → Option Text) (text : Text) (delim : Char)
  (fn : Nat → Text → Option Text → List Edit)

/-- The replacements that the function returns for the cell of a number, with what the header says
about it. -/
def cellEdits (k : Nat) : List Edit :=
  match (CsvHandler.units headerCategory text delim)[k]? with
  | some unit => fn k (CsvHandler.cell text unit.1) unit.2
  | none => []

/-- The rewritten table has as many rows as the table and as many cells in each, the value of
each cell with replacements is the old one with these applied, and the text of each other cell
is the same. -/
structure KeepsGrid : Prop where
  grid : (csvCells (CsvHandler.rewrite headerCategory text delim fn) delim).map List.length =
    (csvCells text delim).map List.length
  rewritten : ∀ k c c', (csvCells text delim).flatten[k]? = some c →
    (csvCells (CsvHandler.rewrite headerCategory text delim fn) delim).flatten[k]? = some c' →
      cellEdits headerCategory text delim fn k ≠ [] →
        CsvHandler.cell (CsvHandler.rewrite headerCategory text delim fn) c' =
          applyReplacements (CsvHandler.cell text c) (cellEdits headerCategory text delim fn k)
  untouched : ∀ k c c', (csvCells text delim).flatten[k]? = some c →
    (csvCells (CsvHandler.rewrite headerCategory text delim fn) delim).flatten[k]? = some c' →
      cellEdits headerCategory text delim fn k = [] →
        (CsvHandler.rewrite headerCategory text delim fn).slice c'.start c'.stop =
          text.slice c.start c.stop

end

/-- The value that a field gets. -/
def newValue (reps : List Edit) (field : Field) : Text :=
  if reps.isEmpty then field.value else applyReplacements field.value reps

/-- A field that is not quoted gets a value with the delimiter in it, and the writer sees no
reason to quote it. -/
def Splits (delim : Char) (reps : List Edit) : Field → Prop
  | .plain value => reps ≠ [] ∧ delim ∈ newValue reps (.plain value) ∧
      CsvHandler.needsQuotes value (newValue reps (.plain value)) = false
  | .quoted _ _ => False

/-- A field that is not quoted gets the empty value. -/
def Emptied (reps : List Edit) : Field → Prop
  | .plain value => newValue reps (.plain value) = []
  | .quoted _ _ => False

/-- What stands behind a separator starts with a row of one cell that is emptied, which leaves
no row: at the end of the text, or between a carriage return and a line feed. -/
def Swallows (separator : Separator) (reps : List Edit) : Document → Prop
  | .last field => separator ≠ .delimiter ∧ Emptied reps field
  | .closing field newline => separator = .carriageReturn ∧ newline = .lineFeed ∧ Emptied reps field
  | .cons field newline _ => separator = .carriageReturn ∧ newline = .lineFeed ∧ Emptied reps field

/-- No field of the document is split by its new value, and no row is swallowed behind a carriage
return. -/
def Writable (delim : Char) (spans : Nat → List Edit) (k : Nat) : Document → Prop
  | .last field => ¬Splits delim (spans k) field
  | .closing field _ => ¬Splits delim (spans k) field
  | .cons field separator rest => ¬Splits delim (spans k) field ∧
      ¬Swallows separator (spans (k + 1)) rest ∧ Writable delim spans (k + 1) rest

/-! ## Fields that are written anew -/

variable {delim : Char} {reps : List Edit} {field : Field}

theorem value_replaceIn (reps : List Edit) (field : Field) :
    (replaceIn reps field).value = newValue reps field := by
  rw [replaceIn, newValue]
  split
  · rfl
  · cases field with
    | plain value =>
      rw [putValue]
      split <;> rfl
    | quoted value trailer => rfl

/-- A new value that is written without quotes has neither quotes nor line breaks in it. -/
theorem clean_of_not_needsQuotes {val newVal : Text}
    (unquoted : ¬CsvHandler.needsQuotes val newVal = true) :
    ∀ c ∈ newVal, c ≠ '"' ∧ c ≠ '\n' ∧ c ≠ '\r' := by
  intro c member
  have special : (c = '"' || c = '\n' || c = '\r') = false := by
    by_contra special
    exact unquoted (Bool.or_eq_true_iff.mpr (.inl (List.any_eq_true.mpr
      ⟨c, member, Bool.eq_true_of_not_eq_false special⟩)))
  simpa [and_assoc] using special

/-- A plain field stays if nothing is replaced in it. Else it is quoted, if its new value needs
that, or it is written plainly with a value that needs no quotes. -/
theorem replaceIn_plain (reps : List Edit) (value : Text) :
    reps = [] ∧ replaceIn reps (.plain value) = .plain value ∨
    reps ≠ [] ∧ (CsvHandler.needsQuotes value (newValue reps (.plain value)) = true ∧
      replaceIn reps (.plain value) = .quoted (newValue reps (.plain value)) (some []) ∨
    ¬CsvHandler.needsQuotes value (newValue reps (.plain value)) = true ∧
      replaceIn reps (.plain value) = .plain (newValue reps (.plain value))) := by
  by_cases nothing : reps = []
  · subst nothing
    exact .inl ⟨rfl, rfl⟩
  · refine .inr ⟨nothing, ?_⟩
    have given : ¬reps.isEmpty = true := by simpa using nothing
    rw [replaceIn, newValue, if_neg given, if_neg given, putValue]
    by_cases quotes : CsvHandler.needsQuotes value (applyReplacements value reps) = true
    · exact .inl ⟨quotes, if_pos quotes⟩
    · exact .inr ⟨quotes, if_neg quotes⟩

theorem replaceIn_quoted (reps : List Edit) (value : Text) (trailer : Option Text) :
    replaceIn reps (.quoted value trailer) =
      .quoted (newValue reps (.quoted value trailer)) trailer := by
  rw [replaceIn, newValue]
  split <;> rfl

theorem loose_replaceIn (closed : field.Closed delim) : (replaceIn reps field).Loose delim := by
  cases field with
  | plain value =>
    rcases replaceIn_plain reps value with ⟨_, same⟩ | ⟨_, ⟨_, same⟩ | ⟨unquoted, same⟩⟩ <;>
      rw [same]
    · exact .inl closed
    · exact ⟨by simp, by simp⟩
    · exact .inr (clean_of_not_needsQuotes unquoted)
  | quoted value trailer =>
    rw [replaceIn_quoted]
    cases trailer with
    | none => exact closed.elim
    | some trailer => exact closed

theorem closed_replaceIn_iff (closed : field.Closed delim) :
    (replaceIn reps field).Closed delim ↔ ¬Splits delim reps field := by
  cases field with
  | plain value =>
    -- a plain field stays, is quoted, or is written plain: only there a separator can split it
    rcases replaceIn_plain reps value with
      ⟨nothing, same⟩ | ⟨given, ⟨quotes, same⟩ | ⟨unquoted, same⟩⟩
    · rw [same]
      exact ⟨fun _ splits => splits.1 nothing, fun _ => closed⟩
    · rw [same]
      refine ⟨fun _ splits => ?_, fun _ => ⟨by simp, by simp⟩⟩
      have unquoted := splits.2.2
      rw [quotes] at unquoted
      cases unquoted
    · have clean := clean_of_not_needsQuotes unquoted
      rw [same]
      constructor
      · rintro harmless ⟨_, member, _⟩
        have separates := harmless.1 delim member
        simp [isSeparator] at separates
      · intro whole
        have absent : delim ∉ newValue reps (.plain value) := fun member =>
          whole ⟨given, member, Bool.eq_false_of_not_eq_true unquoted⟩
        refine ⟨fun c member => ?_, fun quote => (clean _ (List.mem_of_mem_head? quote)).1 rfl⟩
        obtain ⟨_, feed, carriage⟩ := clean c member
        have other : c ≠ delim := fun same => absent (same ▸ member)
        simp [isSeparator, feed, carriage, other]
  | quoted value trailer =>
    rw [replaceIn_quoted]
    refine ⟨fun _ => id, fun _ => ?_⟩
    cases trailer with
    | none => exact closed.elim
    | some trailer => exact closed

theorem final_replaceIn_iff (final : field.Final delim) :
    (replaceIn reps field).Final delim ↔ ¬Splits delim reps field := by
  cases field with
  | plain value =>
    have closed : (Field.plain value).Closed delim := final
    rw [← closed_replaceIn_iff closed]
    refine ⟨fun final => ?_, Field.Closed.final⟩
    rcases replaceIn_plain reps value with ⟨_, same⟩ | ⟨_, ⟨_, same⟩ | ⟨_, same⟩⟩ <;>
    · rw [same] at final ⊢
      exact final
  | quoted value trailer =>
    rw [replaceIn_quoted]
    refine ⟨fun _ => id, fun _ => ?_⟩
    cases trailer with
    | none => trivial
    | some trailer => exact final

theorem emptied_iff : Emptied reps field ↔ (replaceIn reps field).print = [] := by
  cases field with
  | plain value =>
    rw [Emptied]
    rcases replaceIn_plain reps value with ⟨nothing, same⟩ | ⟨_, ⟨quotes, same⟩ | ⟨_, same⟩⟩
    · subst nothing
      rfl
    · rw [same]
      refine ⟨fun empty => ?_, fun none => absurd none (List.cons_ne_nil _ _)⟩
      rw [empty] at quotes
      simp [CsvHandler.needsQuotes] at quotes
    · rw [same]
      rfl
  | quoted value trailer =>
    rw [replaceIn_quoted, print_quoted]
    exact ⟨False.elim, fun none => absurd none (List.cons_ne_nil _ _)⟩

theorem head_replaceIn (final : field.Final delim) :
    (replaceIn reps field).print.head? ≠ some '\n' := by
  have harmless {text : Text} (plain : Field.Harmless delim text) : text.head? ≠ some '\n' := by
    intro feed
    have separates := plain.1 '\n' (List.mem_of_mem_head? feed)
    simp [isSeparator] at separates
  cases field with
  | plain value =>
    rcases replaceIn_plain reps value with ⟨_, same⟩ | ⟨_, ⟨_, same⟩ | ⟨unquoted, same⟩⟩ <;>
      rw [same]
    · exact harmless final
    · simp [Field.print]
    · exact fun feed =>
        (clean_of_not_needsQuotes unquoted _ (List.mem_of_mem_head? feed)).2.1 rfl
  | quoted value trailer =>
    rw [replaceIn_quoted, print_quoted]
    simp

/-! ## Documents that are written anew -/

/-- Before a separator, only an empty field and a line feed make a line feed the first
character. -/
theorem head_separator_iff (isDelim : IsDelimiter delim) {front : Text}
    (start : front.head? ≠ some '\n') (separator : Separator) (rest : Text) :
    (front ++ (separator.print delim ++ rest)).head? = some '\n' ↔
      separator = .lineFeed ∧ front = [] := by
  cases front with
  | nil =>
    cases separator with
    | delimiter => simpa [Separator.print] using isDelim.2.1
    | lineFeed => simp [Separator.print]
    | carriageReturn => simp [Separator.print]
    | crlf => simp [Separator.print]
  | cons c front =>
    refine ⟨fun feed => absurd feed start, fun both => absurd both.2 (List.cons_ne_nil _ _)⟩

theorem not_swallows_iff (isDelim : IsDelimiter delim) {rest : Document}
    (wellFormed : rest.WellFormed delim) (separator : Separator) (spans : Nat → List Edit)
    (k : Nat) : ¬Swallows separator (spans k) rest ↔
      (separator = .carriageReturn →
        ((rest.mapFields (fun k => replaceIn (spans k)) k).print delim).head? ≠ some '\n') ∧
      (separator ≠ .delimiter →
        (rest.mapFields (fun k => replaceIn (spans k)) k).print delim ≠ []) := by
  have some (newline : Separator) (front behind : Text) :
      front ++ (newline.print delim ++ behind) ≠ [] := by
    obtain ⟨c, more, print, _⟩ := Separator.exists_print delim newline
    simp [print]
  -- what follows begins with the first field of the rest, or with the separator behind it if that
  -- is written with nothing
  cases rest with
  | last field =>
    have start := @head_replaceIn delim (spans k) field wellFormed
    simp only [Swallows, emptied_iff, Document.mapFields, Document.print]
    tauto
  | closing field newline =>
    have start := head_separator_iff isDelim
      (@head_replaceIn delim (spans k) field wellFormed.1.final) newline []
    have filled := some newline (replaceIn (spans k) field).print []
    rw [List.append_nil] at start filled
    simp only [Swallows, emptied_iff, Document.mapFields, Document.print]
    tauto
  | cons field newline behind =>
    have start := head_separator_iff isDelim
      (@head_replaceIn delim (spans k) field wellFormed.1.final) newline
      ((behind.mapFields (fun k => replaceIn (spans k)) (k + 1)).print delim)
    have filled := some newline (replaceIn (spans k) field).print
      ((behind.mapFields (fun k => replaceIn (spans k)) (k + 1)).print delim)
    rw [← List.append_assoc] at start filled
    simp only [Swallows, emptied_iff, Document.mapFields, Document.print]
    tauto

/-- Nothing is split or swallowed if and only if the document with the new values is well formed,
that is, read as it is written. -/
theorem writable_iff (isDelim : IsDelimiter delim) (spans : Nat → List Edit) {doc : Document}
    (wellFormed : doc.WellFormed delim) (k : Nat) : Writable delim spans k doc ↔
      (doc.mapFields (fun k => replaceIn (spans k)) k).WellFormed delim := by
  induction doc generalizing k with
  | last field => exact (final_replaceIn_iff wellFormed).symm
  | closing field newline =>
    exact (closed_replaceIn_iff wellFormed.1).symm.trans
      ⟨fun closed => ⟨closed, wellFormed.2⟩, And.left⟩
  | cons field separator rest ih =>
    obtain ⟨closed, _, _, later⟩ := wellFormed
    rw [Writable, Document.mapFields, Document.WellFormed, closed_replaceIn_iff closed, ih later,
      not_swallows_iff isDelim later, and_assoc]

theorem loose_mapFields (spans : Nat → List Edit) {doc : Document}
    (wellFormed : doc.WellFormed delim) (k : Nat) :
    (doc.mapFields (fun k => replaceIn (spans k)) k).Loose delim := by
  induction doc generalizing k with
  | last field =>
    cases field with
    | plain value =>
      have closed : (Field.plain value).Closed delim := wellFormed
      exact .inr (loose_replaceIn closed)
    | quoted value trailer =>
      have final : (replaceIn (spans k) (.quoted value trailer)).Final delim := by
        rw [replaceIn_quoted]
        cases trailer with
        | none => trivial
        | some trailer => exact wellFormed
      exact .inl final
  | closing field newline => exact ⟨loose_replaceIn wellFormed.1, wellFormed.2⟩
  | cons field separator rest ih => exact ⟨loose_replaceIn wellFormed.1, ih wellFormed.2.2.2 _⟩

/-- A table whose grid is that of a document is read as the document is written, where its
fields are loose. -/
theorem wellFormed_of_grid (isDelim : IsDelimiter delim) (f : Nat → Field → Field) {doc : Document}
    (loose : (doc.mapFields f 0).Loose delim)
    (grid : (csvCells ((doc.mapFields f 0).print delim) delim).map List.length =
      (rowsFrom delim 0 [] doc).map List.length) : (doc.mapFields f 0).WellFormed delim := by
  obtain ⟨read, wellFormed, print, _, same, _⟩ := loose.exists_read isDelim.2.1
  rw [← print, csvCells_print isDelim wellFormed,
    @map_length_rowsFrom delim 0 0 [] [] rfl f 0 doc] at grid
  have rows := congrArg List.length grid
  rw [List.length_map, List.length_map, length_rowsFrom, length_rowsFrom] at rows
  have fields := congrArg List.sum grid
  rw [← List.length_flatten, ← List.length_flatten, flatten_rowsFrom, flatten_rowsFrom,
    List.nil_append, List.nil_append, length_cellsFrom, length_cellsFrom] at fields
  exact same rows fields

/-! ## Tables that are written anew -/

/-- What is written of a field in its cell. -/
def Field.raw : Field → Text
  | .plain value => value
  | .quoted value _ => escape value

theorem slice_cellAt (field : Field) (before after : Text) :
    Text.slice (before ++ (field.print ++ after)) (cellAt before.length field).start
      (cellAt before.length field).stop = Field.raw field := by
  cases field with
  | plain value => exact slice_append_left before value after
  | quoted value trailer =>
    have body : before ++ ((Field.quoted value trailer).print ++ after) =
        (before ++ ['"']) ++ (escape value ++ (closingOf trailer ++ after)) := by
      rw [print_quoted]
      simp only [List.append_assoc]
    have front : before.length + 1 = (before ++ ['"']).length := by
      rw [List.length_append]
      rfl
    rw [body, cellAt, front]
    exact slice_append_left _ _ _

theorem map_slice_cellsFrom (delim : Char) (doc : Document) (before : Text) :
    (cellsFrom delim before.length doc).map
        (fun c => Text.slice (before ++ doc.print delim) c.start c.stop) =
      doc.fields.map Field.raw := by
  induction doc generalizing before with
  | last field =>
    have raw := slice_cellAt field before []
    rw [List.append_nil] at raw
    exact congrArg (fun v => [v]) raw
  | closing field newline => exact congrArg (fun v => [v]) (slice_cellAt field before _)
  | cons field separator rest ih =>
    have raw := slice_cellAt field before (separator.print delim ++ rest.print delim)
    have later := ih (before ++ field.print ++ separator.print delim)
    simp only [List.length_append, List.append_assoc] at later
    rw [cellsFrom, List.map_cons, Document.print, List.append_assoc, raw, Nat.add_assoc, later]
    rfl

/-- The handler asks its function for every cell once, in the order of the cells, whatever it was
told before. -/
theorem rewrite_eq (headerCategory : Text → Option Text) (text : Text) (delim : Char)
    (fn : Nat → Text → Option Text → List Edit) :
    CsvHandler.rewrite headerCategory text delim fn = CsvHandler.rewrite headerCategory text delim
      fun call _ _ => cellEdits headerCategory text delim fn call := by
  rw [CsvHandler.rewrite, CsvHandler.rewrite]
  congr 1
  refine List.filterMap_congr fun unit member => ?_
  rw [cellEdits, List.mk_mem_zipIdx_iff_getElem?.mp member]

/-- The cell with a number is the field with this number: the same value, and the same characters in
the text. -/
theorem cell_of_getElem? {doc : Document} {k : Nat} {c : Cell}
    (here : (cellsFrom delim 0 doc)[k]? = some c) : ∃ field, doc.fields[k]? = some field ∧
      CsvHandler.cell (doc.print delim) c = field.value ∧
        (doc.print delim).slice c.start c.stop = Field.raw field := by
  have values := congrArg (·[k]?) (map_cell_cellsFrom delim doc [])
  have raws := congrArg (·[k]?) (map_slice_cellsFrom delim doc [])
  simp only [List.length_nil, List.nil_append, List.getElem?_map, here, Option.map_some]
    at values raws
  obtain ⟨field, found, value⟩ := Option.map_eq_some_iff.mp values.symm
  rw [found] at raws
  exact ⟨field, found, value.symm, Option.some.inj raws⟩

/-- A table is rewritten in its grid exactly when no new value is split and no row is emptied where
it leaves nothing. The edits of a cell are what the callback answers for its value; the delimiter is
neither a quote nor a line break. -/
theorem keepsGrid_iff (headerCategory : Text → Option Text) (text : Text) (delim : Char)
    (fn : Nat → Text → Option Text → List Edit) (isDelim : IsDelimiter delim) :
    KeepsGrid headerCategory text delim fn ↔ ∃ doc : Document, doc.WellFormed delim ∧
      doc.print delim = text ∧ Writable delim (cellEdits headerCategory text delim fn) 0 doc := by
  have output (doc : Document) (wellFormed : doc.WellFormed delim) (print : doc.print delim = text) :
      CsvHandler.rewrite headerCategory text delim fn =
        (doc.mapFields (fun k => replaceIn (cellEdits headerCategory text delim fn k)) 0).print
          delim := by
    rw [rewrite_eq, ← print]
    exact rewrite_document headerCategory isDelim wellFormed _
  constructor
  · intro keeps
    obtain ⟨doc, wellFormed, print⟩ := exists_document delim text
    refine ⟨doc, wellFormed, print, (writable_iff isDelim _ wellFormed 0).mpr ?_⟩
    have grid := keeps.grid
    rw [output doc wellFormed print] at grid
    refine wellFormed_of_grid isDelim _ (loose_mapFields _ wellFormed 0) (grid.trans ?_)
    rw [← print, csvCells_print isDelim wellFormed]
  · rintro ⟨doc, wellFormed, print, writable⟩
    have wellFormed' := (writable_iff isDelim _ wellFormed 0).mp writable
    have out := output doc wellFormed print
    subst print
    -- cell for cell both tables are read from fields of one document, before and after they are
    -- written
    have cells {k : Nat} {c c' : Cell} (here : (csvCells (doc.print delim) delim).flatten[k]? = some c)
        (here' : (csvCells (CsvHandler.rewrite headerCategory (doc.print delim) delim fn)
          delim).flatten[k]? = some c') : ∃ field : Field,
        CsvHandler.cell (doc.print delim) c = field.value ∧
        (doc.print delim).slice c.start c.stop = Field.raw field ∧
        CsvHandler.cell (CsvHandler.rewrite headerCategory (doc.print delim) delim fn) c' =
          newValue (cellEdits headerCategory (doc.print delim) delim fn k) field ∧
        (CsvHandler.rewrite headerCategory (doc.print delim) delim fn).slice c'.start c'.stop =
          Field.raw
            (replaceIn (cellEdits headerCategory (doc.print delim) delim fn k) field) := by
      rw [flatten_csvCells isDelim wellFormed] at here
      rw [out, flatten_csvCells isDelim wellFormed'] at here'
      obtain ⟨field, found, value, raw⟩ := cell_of_getElem? here
      obtain ⟨field', found', value', raw'⟩ := cell_of_getElem? here'
      have written : field' =
          replaceIn (cellEdits headerCategory (doc.print delim) delim fn k) field := by
        rw [Document.fields_mapFields, List.getElem?_map, List.getElem?_zipIdx, found] at found'
        have same := Option.some.inj found'
        rw [← same, Nat.zero_add]
      rw [out, value', raw', written, value_replaceIn]
      exact ⟨field, value, raw, rfl, rfl⟩
    refine ⟨?_, fun k c c' here here' given => ?_, fun k c c' here here' nothing => ?_⟩
    · rw [out, csvCells_print isDelim wellFormed', csvCells_print isDelim wellFormed]
      exact (map_length_rowsFrom delim rfl _ 0 doc).symm
    · obtain ⟨field, value, _, value', _⟩ := cells here here'
      rw [value', value, newValue, if_neg (by simpa using given)]
    · obtain ⟨field, _, raw, _, raw'⟩ := cells here here'
      rw [raw', raw, nothing]
      rfl

/-! ## Two new values -/

/-- The first cell gets the value, and the others stay. -/
def firstCell (value : String) (call : Nat) (_ : Text) (_ : Option Text) : List Edit :=
  if call = 0 then [⟨0, 3, value.toList⟩] else []

def semicolonTable : Text := "Ann;5".toList

theorem keepsGrid_comma : KeepsGrid (fun _ => none) semicolonTable ';' (firstCell "A, B") := by
  refine (keepsGrid_iff (fun _ => none) semicolonTable ';' (firstCell "A, B")
    (by unfold IsDelimiter; decide)).mpr
    ⟨.cons (.plain ['A', 'n', 'n']) .delimiter (.last (.plain ['5'])), ?_, rfl, ?_⟩
  · exact ⟨⟨by simp [isSeparator], by simp⟩, nofun, fun other => absurd rfl other,
      by simp [isSeparator], by simp⟩
  · refine ⟨fun splits => ?_, fun swallows => absurd rfl swallows.1, fun splits => ?_⟩
    · have unquoted := splits.2.2
      revert unquoted
      decide
    · have given := splits.1
      revert given
      decide

/-- A new value with the delimiter is not quoted, and makes two cells. -/
theorem semicolon_splits : IsDelimiter ';' ∧
    ¬KeepsGrid (fun _ => none) semicolonTable ';' (firstCell "A; B") := by
  refine ⟨by unfold IsDelimiter; decide, fun keeps => ?_⟩
  have grid := keeps.grid
  revert grid
  decide

end RedactGate.Desktop
