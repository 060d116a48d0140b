import RedactGate.Desktop.TableRewriting

/-!
# Round trips of tables

A table is read as a document of fields, and what the handler rewrites is the document with
other fields. So a table comes back when every field does: whether a field is quoted is
decided anew on the way back, from the value that comes back.
-/
namespace RedactGate.Desktop

open Library Library.Delimited

/-- A text that can stand in a cell as it is. -/
def IsLabel (delim : Char) (label : Text) : Prop :=
  label ≠ [] ∧ ∀ c ∈ label, isSeparator delim c = false ∧ c ≠ '"' ∧ c ≠ ','

/-- Spans in a cell, and their labels. -/
structure Chosen (delim : Char) (value : Text) (spans : List Edit) : Prop where
  placed : Placed value spans
  labels : ∀ span ∈ spans, IsLabel delim span.new

section

variable (headerCategory : Text → Option Text) (text : Text) (delim : Char)
  (spans : Nat → List Edit)

/-- The table with labels in place of the spans of every cell. -/
def anonymized : Text := CsvHandler.rewrite headerCategory text delim fun call _ _ => spans call

/-- That table with the old texts in place of the labels. -/
def restored : Text :=
  CsvHandler.rewrite headerCategory (anonymized headerCategory text delim spans) delim
    fun call _ _ => Edit.undo ((values text delim).getD call []) 0 0 (spans call)

end

/-- A cell that comes back: it is quoted, or has no quote, and a comma outside the spans if
it has a comma at all. -/
def ComesBack (text : Text) (c : Cell) (spans : List Edit) : Prop :=
  c.quoted = true ∨ '"' ∉ CsvHandler.cell text c ∧
    (',' ∈ CsvHandler.cell text c →
      ∃ piece ∈ pieces (CsvHandler.cell text c) 0 (spans.map Edit.stretch), ',' ∈ piece)

/-! ## Labels in documents -/

section

variable {delim : Char} {reps : List Edit}

/-- With labels, a cell has no separator that it did not have before. -/
theorem plain_patch {value : Text} (chosen : Chosen delim value reps)
    (plain : ∀ c ∈ value, isSeparator delim c = false) :
    ∀ c ∈ Edit.patch value 0 reps, isSeparator delim c = false := by
  intro c member
  rcases Edit.mem_patch member with old | ⟨r, among, new⟩
  · exact plain c old
  · exact ((chosen.labels r among).2 c new).1

theorem not_quote_of_not_needsQuotes {val newVal : Text}
    (unquoted : ¬CsvHandler.needsQuotes val newVal = true) : '"' ∉ newVal := by
  intro member
  refine unquoted (Bool.or_eq_true_iff.mpr (.inl (List.any_eq_true.mpr ⟨'"', member, ?_⟩)))
  rfl

theorem harmless_patch {value : Text} (chosen : Chosen delim value reps)
    (plain : ∀ c ∈ value, isSeparator delim c = false)
    (unquoted : ¬CsvHandler.needsQuotes value (Edit.patch value 0 reps) = true) :
    Field.Harmless delim (Edit.patch value 0 reps) :=
  ⟨plain_patch chosen plain, fun quote =>
    not_quote_of_not_needsQuotes unquoted (List.mem_of_mem_head? quote)⟩

theorem harmless_nil (delim : Char) : Field.Harmless delim [] := ⟨by simp, by simp⟩

/-- A field that a separator follows is read as it is written after it was rewritten, too. -/
theorem closed_rewriteField {field : Field} (chosen : Chosen delim field.value reps)
    (closed : field.Closed delim) : (rewriteField reps field).Closed delim := by
  cases field with
  | plain value =>
    rw [rewriteField]
    split
    · exact closed
    · split
      next => exact harmless_nil delim
      next unquoted => exact harmless_patch chosen closed.1 unquoted
  | quoted value trailer =>
    cases trailer with
    | none => exact closed.elim
    | some trailer => exact closed

theorem final_rewriteField {field : Field} (chosen : Chosen delim field.value reps)
    (final : field.Final delim) : (rewriteField reps field).Final delim := by
  cases field with
  | plain value =>
    have closed : (Field.plain value).Closed delim := final
    exact (closed_rewriteField chosen closed).final
  | quoted value trailer =>
    cases trailer with
    | none => trivial
    | some trailer => exact final

theorem patch_ne_nil {value : Text} (chosen : Chosen delim value reps) (some : value ≠ []) :
    Edit.patch value 0 reps ≠ [] := by
  cases reps with
  | nil => exact some
  | cons r reps =>
    obtain ⟨c, new⟩ := List.exists_mem_of_ne_nil _ (chosen.labels r List.mem_cons_self).1
    exact List.ne_nil_of_mem (Edit.mem_patch_of_mem_new List.mem_cons_self new)

/-- A field that is written with nothing stays so, and any other one starts with no line break after
it is rewritten: no row appears or disappears. -/
theorem print_rewriteField {field : Field} (chosen : Chosen delim field.value reps)
    (final : field.Final delim) : (field.print = [] ∧ (rewriteField reps field).print = []) ∨
      (field.print ≠ [] ∧ (rewriteField reps field).print ≠ [] ∧
        (rewriteField reps field).print.head? ≠ some '\n') := by
  cases field with
  | plain value =>
    by_cases empty : value = []
    -- an empty value has no spans, so it stays
    · have nothing : reps = [] := by
        by_contra some
        exact chosen.placed.ne_nil some empty
      subst empty nothing
      exact .inl ⟨rfl, rfl⟩
    · refine .inr ⟨empty, ?_⟩
      have filled := patch_ne_nil chosen empty
      have start {text : Text} (plain : ∀ c ∈ text, isSeparator delim c = false) :
          text.head? ≠ some '\n' := by
        intro line
        have separates := plain '\n' (List.mem_of_mem_head? line)
        simp [isSeparator] at separates
      rw [rewriteField]
      split
      · exact ⟨empty, start final.1⟩
      · split
        next => exact ⟨List.cons_ne_nil _ _, by simp [Field.print]⟩
        next => exact ⟨filled, start (plain_patch chosen final.1)⟩
  | quoted value trailer =>
    have opening (value : Text) : (Field.quoted value trailer).print.head? = some '"' := by
      rw [print_quoted]
      rfl
    refine .inr ⟨fun empty => ?_, fun empty => ?_, ?_⟩
    · have := opening value
      rw [empty] at this
      cases this
    · have := opening (Edit.patch value 0 reps)
      rw [rewriteField] at empty
      rw [empty] at this
      cases this
    · rw [rewriteField, opening]
      simp

end

/-- The first character of a document, which a rewriting can only change to something that
is no line feed. -/
theorem head_mapFields {delim : Char} {spans : Nat → List Edit} {doc : Document} {k : Nat}
    (chosen : ∀ entry ∈ doc.fields.zipIdx k, Chosen delim entry.1.value (spans entry.2))
    (wellFormed : doc.WellFormed delim) :
    ((doc.print delim).head? ≠ some '\n' →
      ((doc.mapFields (fun k => rewriteField (spans k)) k).print delim).head? ≠ some '\n') ∧
    (doc.print delim ≠ [] →
      (doc.mapFields (fun k => rewriteField (spans k)) k).print delim ≠ []) := by
  -- the first field, and the same separator behind it
  have first (field : Field) (own : Chosen delim field.value (spans k))
      (final : field.Final delim) (tail tail' : Text) (same : tail'.head? = tail.head?) :
      ((field.print ++ tail).head? ≠ some '\n' →
        ((rewriteField (spans k) field).print ++ tail').head? ≠ some '\n') ∧
      (field.print ++ tail ≠ [] → (rewriteField (spans k) field).print ++ tail' ≠ []) := by
    rcases print_rewriteField own final with ⟨empty, empty'⟩ | ⟨some, some', start⟩
    · rw [empty, empty', List.nil_append, List.nil_append, same]
      refine ⟨id, fun filled none => filled ?_⟩
      rw [none] at same
      exact List.head?_eq_none_iff.mp same.symm
    · refine ⟨fun _ => ?_, fun _ => ?_⟩
      · rw [List.head?_append_of_ne_nil _ some']
        exact start
      · exact List.append_ne_nil_of_left_ne_nil some' _
  cases doc with
  | last field =>
    have own := first field (chosen (field, k) List.mem_cons_self) wellFormed [] [] rfl
    rw [List.append_nil, List.append_nil] at own
    exact own
  | closing field newline =>
    exact first field (chosen (field, k) List.mem_cons_self) wellFormed.1.final _ _ rfl
  | cons field separator rest =>
    obtain ⟨c, more, print, _⟩ := Separator.exists_print delim separator
    have own := first field (chosen (field, k) List.mem_cons_self) wellFormed.1.final
      (separator.print delim ++ rest.print delim)
      (separator.print delim ++
        (rest.mapFields (fun k => rewriteField (spans k)) (k + 1)).print delim) (by rw [print]; rfl)
    simpa only [Document.mapFields, Document.print, List.append_assoc] using own

theorem wellFormed_mapFields {delim : Char} {spans : Nat → List Edit} {doc : Document} {k : Nat}
    (chosen : ∀ entry ∈ doc.fields.zipIdx k, Chosen delim entry.1.value (spans entry.2))
    (wellFormed : doc.WellFormed delim) :
    (doc.mapFields (fun k => rewriteField (spans k)) k).WellFormed delim := by
  induction doc generalizing k with
  | last field => exact final_rewriteField (chosen (field, k) List.mem_cons_self) wellFormed
  | closing field newline =>
    exact ⟨closed_rewriteField (chosen (field, k) List.mem_cons_self) wellFormed.1, wellFormed.2⟩
  | cons field separator rest ih =>
    obtain ⟨closed, clear, some, wellFormed⟩ := wellFormed
    have later : ∀ entry ∈ rest.fields.zipIdx (k + 1), Chosen delim entry.1.value (spans entry.2) :=
      fun entry member => chosen entry (List.mem_cons_of_mem _ member)
    obtain ⟨head, filled⟩ := head_mapFields later wellFormed
    exact ⟨closed_rewriteField (chosen (field, k) List.mem_cons_self) closed,
      fun single => head (clear single), fun line => filled (some line), ih later wellFormed⟩

/-! ## There and back -/

/-- When a field comes back: it was quoted, or it has no quotes and, if it has a comma, one that the
replacements leave. -/
def FieldComesBack (field : Field) (reps : List Edit) : Prop :=
  match field with
  | .plain value => '"' ∉ value ∧
      (',' ∈ value → ∃ piece ∈ pieces value 0 (reps.map Edit.stretch), ',' ∈ piece)
  | .quoted _ _ => True

/-- A field, rewritten to labels and back. -/
def thereAndBack (reps : List Edit) (field : Field) : Field :=
  rewriteField (Edit.undo field.value 0 0 reps) (rewriteField reps field)

theorem value_rewriteField (reps : List Edit) (field : Field) :
    (rewriteField reps field).value = Edit.patch field.value 0 reps := by
  cases field with
  | plain value =>
    rw [rewriteField]
    split
    · rename_i nothing
      rw [List.isEmpty_iff.mp nothing]
      rfl
    · split <;> rfl
  | quoted value trailer => rfl

theorem placed_undo {delim : Char} {value : Text} {reps : List Edit}
    (chosen : Chosen delim value reps) :
    Placed (Edit.patch value 0 reps) (Edit.undo value 0 0 reps) where
  ordered := (Edit.patch_undo chosen.placed.ordered []).1
  proper := Edit.undo_proper fun span member => (chosen.labels span member).1

section

variable {delim : Char} {reps : List Edit}

/-- The new value of a cell needs quotes if it has a quote, or a comma that the old value had not;
line breaks are out of the question here. -/
theorem needsQuotes_iff {val newVal : Text} (plain : ∀ c ∈ newVal, isSeparator delim c = false) :
    CsvHandler.needsQuotes val newVal = true ↔ '"' ∈ newVal ∨ (',' ∈ newVal ∧ ',' ∉ val) := by
  rw [CsvHandler.needsQuotes, Bool.or_eq_true, Bool.and_eq_true, decide_eq_true_eq,
    decide_eq_true_eq, List.any_eq_true]
  refine or_congr_left ⟨?_, fun member => ⟨'"', member, rfl⟩⟩
  rintro ⟨c, member, special⟩
  have separates := plain c member
  simp only [isSeparator, Bool.or_eq_false_iff, decide_eq_false_iff_not] at separates
  simp only [Bool.or_eq_true, decide_eq_true_eq, separates.1.2, separates.2, or_false] at special
  exact special ▸ member

/-- No character of a label is the one, so it is in the new value if it was outside the spans. -/
theorem mem_patch_iff_of_not_label (value : Text) {c : Char}
    (clear : ∀ span ∈ reps, c ∉ span.new) : c ∈ Edit.patch value 0 reps ↔
      ∃ piece ∈ pieces value 0 (reps.map Edit.stretch), c ∈ piece := by
  rw [Edit.mem_patch_iff]
  refine ⟨fun member => member.resolve_right ?_, .inl⟩
  rintro ⟨span, among, new⟩
  exact clear span among new

theorem length_quoted (value : Text) :
    value.length < (Field.quoted value (some [])).print.length := by
  have := length_le_escape value
  simp only [Field.print, List.length_cons, List.length_append, List.length_nil]
  omega

theorem rewriteField_plain {value : Text} (given : reps ≠ []) :
    rewriteField reps (.plain value) =
      if CsvHandler.needsQuotes value (Edit.patch value 0 reps) then
        .quoted (Edit.patch value 0 reps) (some [])
      else .plain (Edit.patch value 0 reps) := by
  rw [rewriteField, if_neg (by simpa using given)]

theorem undo_ne_nil {value : Text} (given : reps ≠ []) : Edit.undo value 0 0 reps ≠ [] := by
  intro none
  have length := Edit.length_undo value 0 0 reps
  rw [none] at length
  exact given (List.length_eq_zero_iff.mp length.symm)

/-- A plain field with labels is quoted only for a quote that stands outside the spans, and
then it stays quoted. Otherwise it is quoted on the way back, for a quote or a comma of the
old text. -/
theorem thereAndBack_plain {value : Text} (chosen : Chosen delim value reps)
    (plain : ∀ c ∈ value, isSeparator delim c = false) (given : reps ≠ []) :
    thereAndBack reps (.plain value) =
      if '"' ∈ value ∨ (',' ∈ value ∧ ',' ∉ Edit.patch value 0 reps) then .quoted value (some [])
      else .plain value := by
  -- the labels are replaced by what they stood for, so only quotes that were put around the cell
  -- can stay
  have back : Edit.patch (Edit.patch value 0 reps) 0 (Edit.undo value 0 0 reps) = value :=
    Edit.patch_undo_all chosen.placed.ordered
  have quote := mem_patch_iff_of_not_label value (c := '"')
    fun span member inside => ((chosen.labels span member).2 '"' inside).2.1 rfl
  have comma := mem_patch_iff_of_not_label value (c := ',')
    fun span member inside => ((chosen.labels span member).2 ',' inside).2.2 rfl
  have old {c : Char} (label : ∀ span ∈ reps, c ∉ span.new)
      (member : c ∈ Edit.patch value 0 reps) : c ∈ value := by
    rcases Edit.mem_patch member with old | ⟨span, among, new⟩
    · exact old
    · exact absurd new (label span among)
  have oldQuote := old (c := '"')
    fun span member inside => ((chosen.labels span member).2 '"' inside).2.1 rfl
  have oldComma := old (c := ',')
    fun span member inside => ((chosen.labels span member).2 ',' inside).2.2 rfl
  rw [thereAndBack, rewriteField_plain given, Field.value]
  by_cases there : CsvHandler.needsQuotes value (Edit.patch value 0 reps) = true
  · have inside : '"' ∈ value := by
      rcases (needsQuotes_iff (plain_patch chosen plain)).mp there with quote | ⟨comma, new⟩
      · exact oldQuote quote
      · exact absurd (oldComma comma) new
    rw [if_pos there, if_pos (.inl inside), rewriteField, back]
  · rw [if_neg there, rewriteField_plain (undo_ne_nil given), back]
    simp only [needsQuotes_iff plain]

/-- A field in which something is replaced comes back under its condition, and comes back longer
without it: the quotes of the first pass remain. -/
theorem print_thereAndBack {field : Field} (chosen : Chosen delim field.value reps)
    (final : field.Final delim) (given : reps ≠ []) :
    (FieldComesBack field reps → thereAndBack reps field = field) ∧
      (¬FieldComesBack field reps →
        field.print.length < (thereAndBack reps field).print.length) := by
  cases field with
  | plain value =>
    have comma := mem_patch_iff_of_not_label value (c := ',')
      fun span member inside => ((chosen.labels span member).2 ',' inside).2.2 rfl
    have chosen' : Chosen delim value reps := chosen
    rw [thereAndBack_plain chosen' final.1 given, FieldComesBack, ← comma]
    constructor
    -- a cell that gets quotes is longer than it was, so the table cannot be the one before
    · rintro ⟨quote, outside⟩
      rw [if_neg]
      rintro (inside | ⟨there, gone⟩)
      · exact quote inside
      · exact gone (outside there)
    · intro lost
      rw [if_pos]
      · exact length_quoted value
      · by_contra kept
        rw [not_or, not_and_not_right] at kept
        exact lost kept
  | quoted value trailer =>
    refine ⟨fun _ => ?_, fun lost => absurd trivial lost⟩
    have back : Edit.patch (Edit.patch value 0 reps) 0 (Edit.undo value 0 0 reps) = value :=
      Edit.patch_undo_all chosen.placed.ordered
    rw [thereAndBack, rewriteField, rewriteField, Field.value, back]

end

/-- A document whose fields remain or become longer is at least as long as before, and it has its
old length only if every field remains. -/
theorem print_mapFields (delim : Char) {f : Nat → Field → Field} (doc : Document) {k : Nat}
    (grow : ∀ entry ∈ doc.fields.zipIdx k, f entry.2 entry.1 = entry.1 ∨
      entry.1.print.length < (f entry.2 entry.1).print.length) :
    (doc.print delim).length ≤ ((doc.mapFields f k).print delim).length ∧
      (((doc.mapFields f k).print delim).length = (doc.print delim).length →
        ∀ entry ∈ doc.fields.zipIdx k, f entry.2 entry.1 = entry.1) := by
  -- the first field, and how much longer it has become
  have least (field : Field) (k : Nat) (own : f k field = field ∨
      field.print.length < (f k field).print.length) :
      field.print.length ≤ (f k field).print.length ∧
        ((f k field).print.length = field.print.length → f k field = field) := by
    rcases own with same | longer
    · exact ⟨Nat.le_of_eq (congrArg (fun f => f.print.length) same.symm), fun _ => same⟩
    · exact ⟨Nat.le_of_lt longer, fun same => absurd same (Nat.ne_of_gt longer)⟩
  induction doc generalizing k with
  | last field =>
    obtain ⟨le, exact⟩ := least field k (grow (field, k) List.mem_cons_self)
    exact ⟨le, fun same => List.forall_mem_singleton.mpr (exact same)⟩
  | closing field newline =>
    obtain ⟨le, exact⟩ := least field k (grow (field, k) List.mem_cons_self)
    simp only [Document.print, Document.mapFields, List.length_append]
    refine ⟨by omega, fun same => List.forall_mem_singleton.mpr (exact ?_)⟩
    omega
  | cons field separator rest ih =>
    obtain ⟨le, exact⟩ := least field k (grow (field, k) List.mem_cons_self)
    obtain ⟨le', exact'⟩ := ih (k := k + 1) fun entry member =>
      grow entry (List.mem_cons_of_mem _ member)
    simp only [Document.print, Document.mapFields, List.length_append]
    refine ⟨by omega, fun same => ?_⟩
    exact List.forall_mem_cons.mpr ⟨exact (by omega), exact' (by omega)⟩

theorem mapFields_id (k : Nat) (doc : Document) : doc.mapFields (fun _ field => field) k = doc := by
  induction doc generalizing k with
  | last field => rfl
  | closing field newline => rfl
  | cons field separator rest ih => exact congrArg (Document.cons field separator) (ih (k + 1))

theorem final_of_wellFormed {delim : Char} {doc : Document} (wellFormed : doc.WellFormed delim) :
    ∀ field ∈ doc.fields, field.Final delim := by
  induction doc with
  | last field => exact List.forall_mem_singleton.mpr wellFormed
  | closing field newline => exact List.forall_mem_singleton.mpr wellFormed.1.final
  | cons field separator rest ih =>
    exact List.forall_mem_cons.mpr ⟨wellFormed.1.final, ih wellFormed.2.2.2⟩

theorem mapFields_mapFields (f g : Nat → Field → Field) (k : Nat) (doc : Document) :
    (doc.mapFields f k).mapFields g k = doc.mapFields (fun k field => g k (f k field)) k := by
  induction doc generalizing k with
  | last field => rfl
  | closing field newline => rfl
  | cons field separator rest ih => exact congrArg (Document.cons _ separator) (ih (k + 1))

/-! ## The round trip -/

theorem map_quoted_cellsFrom (delim : Char) (doc : Document) (pos : Nat) :
    (cellsFrom delim pos doc).map Cell.quoted =
      doc.fields.map fun field => (cellAt 0 field).quoted := by
  have own (pos : Nat) (field : Field) : (cellAt pos field).quoted = (cellAt 0 field).quoted := by
    cases field <;> rfl
  induction doc generalizing pos with
  | last field => exact congrArg (fun q => [q]) (own pos field)
  | closing field newline => exact congrArg (fun q => [q]) (own pos field)
  | cons field separator rest ih =>
    rw [cellsFrom, List.map_cons, ih, own]
    rfl

/-- The cells that the reader finds in the text are the fields of the document, by their indexes,
and the condition says the same of both. -/
theorem comesBack_iff {delim : Char} (isDelim : IsDelimiter delim) {doc : Document}
    (wellFormed : doc.WellFormed delim) {k : Nat} {c : Cell}
    (found : (csvCells (doc.print delim) delim).flatten[k]? = some c) (reps : List Edit) :
    ∃ field, doc.fields[k]? = some field ∧
      (ComesBack (doc.print delim) c reps ↔ FieldComesBack field reps) := by
  have cells := flatten_csvCells isDelim wellFormed
  have value := congrArg (·[k]?) (values_print isDelim wellFormed)
  have quoted := congrArg (·[k]?) (map_quoted_cellsFrom delim doc 0)
  simp only [values, List.getElem?_map, found, ← cells, Option.map_some] at value quoted
  cases field_k : doc.fields[k]? with
  | none =>
    rw [field_k] at value
    cases value
  | some field =>
    rw [field_k, Option.map_some] at value quoted
    refine ⟨field, rfl, ?_⟩
    rw [ComesBack, Option.some.inj value, Option.some.inj quoted]
    cases field with
    | plain value => simp [cellAt, FieldComesBack, Field.value]
    | quoted value trailer => simp [cellAt, FieldComesBack]

/-- What is said of the values of all cells of a text holds of all fields of the document that the
text is. -/
theorem forall_fields {delim : Char} (isDelim : IsDelimiter delim) {doc : Document}
    (wellFormed : doc.WellFormed delim) {P : Text → Nat → Prop}
    (all : ∀ k value, (values (doc.print delim) delim)[k]? = some value → P value k) :
    ∀ entry ∈ doc.fields.zipIdx, P entry.1.value entry.2 := by
  rintro ⟨field, k⟩ member
  have found : doc.fields[k]? = some field := List.mk_mem_zipIdx_iff_getElem?.mp member
  apply all
  rw [values_print isDelim wellFormed, List.getElem?_map, found]
  rfl

section

variable (headerCategory : Text → Option Text) {text : Text} {delim : Char}
  {spans : Nat → List Edit}

/-- The table with labels is read as one with the labels in its values, and going back
rewrites the fields of the document once more. -/
theorem restored_print (isDelim : IsDelimiter delim) {doc : Document}
    (wellFormed : doc.WellFormed delim)
    (chosen : ∀ entry ∈ doc.fields.zipIdx, Chosen delim entry.1.value (spans entry.2)) :
    values (anonymized headerCategory (doc.print delim) delim spans) delim =
        (values (doc.print delim) delim).zipIdx.map (fun v => Edit.patch v.1 0 (spans v.2)) ∧
      restored headerCategory (doc.print delim) delim spans =
        (doc.mapFields (fun k => thereAndBack (spans k)) 0).print delim := by
  -- both rewritings are applied to the fields of one document
  have there : anonymized headerCategory (doc.print delim) delim spans =
      (doc.mapFields (fun k => rewriteField (spans k)) 0).print delim :=
    rewrite_print headerCategory isDelim wellFormed spans fun entry member =>
      (chosen entry member).placed
  have wellFormed' := wellFormed_mapFields chosen wellFormed
  have fields : ∀ k field, doc.fields[k]? = some field →
      (values (doc.print delim) delim).getD k [] = field.value := by
    intro k field found
    rw [values_print isDelim wellFormed, List.getD_eq_getElem?_getD, List.getElem?_map, found]
    rfl
  refine ⟨?_, ?_⟩
  · rw [there, values_print isDelim wellFormed', values_print isDelim wellFormed,
      Document.fields_mapFields, List.zipIdx_map, List.map_map, List.map_map]
    exact List.map_congr_left fun entry _ => value_rewriteField _ _
  · have back := rewrite_print headerCategory isDelim wellFormed'
      (fun call => Edit.undo ((values (doc.print delim) delim).getD call []) 0 0 (spans call)) (by
      rintro ⟨field', k⟩ member
      have found : (doc.mapFields (fun k => rewriteField (spans k)) 0).fields[k]? = some field' :=
        List.mk_mem_zipIdx_iff_getElem?.mp member
      rw [Document.fields_mapFields, List.getElem?_map, List.getElem?_zipIdx,
        Option.map_map] at found
      obtain ⟨field, field_k, rfl⟩ := Option.map_eq_some_iff.mp found
      have entry := List.mk_mem_zipIdx_iff_getElem?.mpr field_k
      simp only [fields k field field_k, Function.comp, Nat.zero_add, value_rewriteField]
      exact placed_undo (chosen (field, k) entry))
    rw [restored, there, back, mapFields_mapFields]
    congr 1
    refine mapFields_congr ?_
    rintro ⟨field, k⟩ member
    simp only [fields k field (List.mk_mem_zipIdx_iff_getElem?.mp member), thereAndBack]

/-- With spans of any cells replaced by labels, the table has the labels in its values, and with the
labels replaced again it is the table byte for byte exactly when every cell of these comes back: it
is quoted, or it has no quote, and a comma outside the spans if it has a comma at all. The spans lie
in the values of their cells, and their labels have no separator, quote or comma. -/
theorem csv_round_trip_iff (text : Text) (delim : Char) (spans : Nat → List Edit)
    (isDelim : IsDelimiter delim)
    (chosen : ∀ k value, (values text delim)[k]? = some value → Chosen delim value (spans k)) :
    values (anonymized headerCategory text delim spans) delim =
        (values text delim).zipIdx.map (fun v => Edit.patch v.1 0 (spans v.2)) ∧
      (restored headerCategory text delim spans = text ↔
        ∀ k c, (csvCells text delim).flatten[k]? = some c → spans k ≠ [] →
          ComesBack text c (spans k)) := by
  obtain ⟨doc, wellFormed, rfl⟩ := exists_document delim text
  have fits := forall_fields isDelim wellFormed (P := fun value k => Chosen delim value (spans k))
    chosen
  obtain ⟨reads, back⟩ := restored_print headerCategory isDelim wellFormed fits
  refine ⟨reads, ?_⟩
  -- where nothing is replaced, nothing changes
  have untouched (field : Field) : thereAndBack [] field = field := by cases field <;> rfl
  have own (entry) (member : entry ∈ doc.fields.zipIdx) (given : spans entry.2 ≠ []) :=
    print_thereAndBack (fits entry member) (final_of_wellFormed wellFormed entry.1
      (List.mem_of_getElem? (List.mk_mem_zipIdx_iff_getElem?.mp member))) given
  rw [back]
  constructor
  · intro same k c found given
    obtain ⟨field, field_k, iff⟩ := comesBack_iff isDelim wellFormed found (spans k)
    have member : (field, k) ∈ doc.fields.zipIdx := List.mk_mem_zipIdx_iff_getElem?.mpr field_k
    obtain ⟨_, exact⟩ := print_mapFields delim
      (f := fun k => thereAndBack (spans k)) doc (k := 0) fun entry member => by
        by_cases given : spans entry.2 = []
        · exact .inl (given ▸ untouched entry.1)
        · by_cases back : FieldComesBack entry.1 (spans entry.2)
          · exact .inl ((own entry member given).1 back)
          · exact .inr ((own entry member given).2 back)
    have kept := exact (congrArg List.length same) (field, k) member
    rw [iff]
    by_contra lost
    have longer := (own (field, k) member given).2 lost
    rw [kept] at longer
    exact Nat.lt_irrefl _ longer
  · intro all
    refine congrArg (Document.print delim) ((mapFields_congr ?_).trans (mapFields_id 0 doc))
    rintro ⟨field, k⟩ member
    by_cases given : spans k = []
    · exact given ▸ untouched field
    · have cells := flatten_csvCells isDelim wellFormed
      have field_k := List.mk_mem_zipIdx_iff_getElem?.mp member
      have value := congrArg (·[k]?) (values_print isDelim wellFormed)
      simp only [values, List.getElem?_map, field_k, Option.map_some] at value
      obtain ⟨c, found, _⟩ := Option.map_eq_some_iff.mp value
      obtain ⟨field', field_k', iff⟩ := comesBack_iff isDelim wellFormed found (spans k)
      obtain rfl : field' = field := Option.some.inj (field_k'.symm.trans field_k)
      exact (own (field', k) member given).1 (iff.mp (all k c found given))

end

/-- A label in place of the first three characters of the first cell. -/
def firstName (k : Nat) : List Edit :=
  if k = 0 then [⟨0, 3, "Person-1".toList⟩] else []

theorem chosen_firstName {text : Text} {first : Text} {rest : List Text}
    (read : values text ',' = first :: rest) (long : 3 ≤ first.length) :
    ∀ k value, (values text ',')[k]? = some value → Chosen ',' value (firstName k) := by
  intro k value found
  cases k with
  | zero =>
    rw [read, List.getElem?_cons_zero] at found
    obtain rfl := Option.some.inj found
    refine ⟨⟨⟨by decide, by decide, long⟩, by decide⟩, fun span member => ?_⟩
    obtain rfl := List.mem_singleton.mp member
    have plain : "Person-1".toList.all
        (fun c => !isSeparator ',' c && (c ≠ '"' : Bool) && (c ≠ ',' : Bool)) = true := by
      decide
    refine ⟨by decide, fun c inside => ?_⟩
    simpa [and_assoc] using List.all_eq_true.mp plain c inside
  | succ k => exact ⟨⟨Nat.zero_le _, by simp [firstName]⟩, by simp [firstName]⟩

def plainTable : Text := "Ann,Kyiv".toList

theorem csv_round_trip_iff_plainTable :
    restored (fun _ => none) plainTable ',' firstName = plainTable := by
  have read : values plainTable ',' = ["Ann".toList, "Kyiv".toList] := by decide
  refine ((csv_round_trip_iff (fun _ => none) plainTable ',' firstName
    ⟨by decide, by decide, by decide⟩ (chosen_firstName read (by decide))).2).mpr ?_
  intro k c found given
  have first : k = 0 := by
    by_contra later
    exact given (if_neg later)
  subst first
  have cells : (csvCells plainTable ',').flatten[0]? = some ⟨0, 3, false⟩ := by decide
  rw [cells] at found
  obtain rfl := Option.some.inj found
  refine .inr ⟨by decide, fun comma => absurd comma (by decide)⟩

/-- A cell with quotes in it that is not quoted itself. -/
def quotesTable : Text := "Ann \"A\",Kyiv".toList

theorem csv_round_trip_fails :
    (∀ k value, (values quotesTable ',')[k]? = some value → Chosen ',' value (firstName k)) ∧
      restored (fun _ => none) quotesTable ',' firstName = "\"Ann \"\"A\"\"\",Kyiv".toList ∧
      restored (fun _ => none) quotesTable ',' firstName ≠ quotesTable := by
  have read : values quotesTable ',' = ["Ann \"A\"".toList, "Kyiv".toList] := by decide
  refine ⟨chosen_firstName read (by decide), ?_, ?_⟩
  · decide
  · decide

end RedactGate.Desktop
