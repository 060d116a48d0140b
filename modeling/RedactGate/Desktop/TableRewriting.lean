import RedactGate.Desktop.Tables

/-!
# Rewriting of tables

What the handler makes of a table is the document with other fields.
-/
namespace RedactGate.Desktop

open Library Library.Delimited

/-- A field with a new value: quotes that are there stay, and a plain field gets some if its value
needs them. -/
def putValue (newVal : Text) : Field → Field
  | .plain value =>
    if CsvHandler.needsQuotes value newVal then .quoted newVal (some []) else .plain newVal
  | .quoted _ trailer => .quoted newVal trailer

/-- What becomes of a field for which the function returns the replacements. -/
def replaceIn (reps : List Edit) (field : Field) : Field :=
  if reps.isEmpty then field else putValue (applyReplacements field.value reps) field

/-- What becomes of a field in which something is replaced: quotes that are there stay, and a plain
field gets some if its new value needs them. -/
def rewriteField (reps : List Edit) : Field → Field
  | .plain value =>
    if reps.isEmpty then .plain value
    else if CsvHandler.needsQuotes value (Edit.patch value 0 reps) then
      .quoted (Edit.patch value 0 reps) (some [])
    else .plain (Edit.patch value 0 reps)
  | .quoted value trailer => .quoted (Edit.patch value 0 reps) trailer

theorem rewriteField_eq {field : Field} {reps : List Edit} (placed : Placed field.value reps) :
    rewriteField reps field = replaceIn reps field := by
  rw [replaceIn, applyReplacements_eq placed]
  cases field with
  | plain value => rfl
  | quoted value trailer =>
    by_cases nothing : reps = []
    · subst nothing
      rfl
    · rw [if_neg (by simpa using nothing)]
      rfl

theorem slice_append_left (before piece after : Text) :
    Text.slice (before ++ (piece ++ after)) before.length (before.length + piece.length) =
      piece := by
  rw [Text.slice_eq_take_drop, List.drop_left, Nat.add_sub_cancel_left, List.take_left]

theorem slice_self (text : Text) (pos : Nat) : text.slice pos pos = [] := by
  rw [Text.slice_eq_take_drop, Nat.sub_self, List.take_zero]

/-- Something can be replaced only in a value that is not empty, since the spans of edits are not. -/
theorem Placed.ne_nil {value : Text} {reps : List Edit} (placed : Placed value reps)
    (some : reps ≠ []) : value ≠ [] := by
  rintro rfl
  cases reps with
  | nil => exact some rfl
  | cons r reps =>
    have inside := placed.ordered.2.2.le_length
    have proper := placed.proper r List.mem_cons_self
    simp only [List.length_nil] at inside
    omega

/-- An edit within a stretch, before edits behind the stretch. -/
theorem patch_within {text : Text} (pos : Nat) {next : Nat} {e : Edit} {es : List Edit}
    (before : pos ≤ e.start) (proper : e.start ≤ e.stop) (inside : e.stop ≤ next)
    (ordered : Edit.Ordered text next es) : Edit.Ordered text pos (e :: es) ∧
      Edit.patch text pos (e :: es) = text.slice pos e.start ++ e.new ++ text.slice e.stop next ++
        Edit.patch text next es := by
  refine ⟨⟨before, proper, ordered.advance inside⟩, ?_⟩
  rw [Edit.patch, Edit.patch_advance inside ordered, List.append_assoc _ _ (Edit.patch text next es)]

/-- One cell before the others: the replacement of the cell fits before the replacements behind it,
and it writes the field with its new value, quoted if that is needed. -/
theorem patch_field (field : Field) (reps : List Edit) {before after text : Text}
    (text_eq : text = before ++ (field.print ++ after)) (es : List Edit)
    (ordered : Edit.Ordered text (before.length + field.print.length) es) :
    let raw := CsvHandler.rawReplacement text (cellAt before.length field) reps
    Edit.Ordered text before.length (raw.toList ++ es) ∧
      Edit.patch text before.length (raw.toList ++ es) =
        (replaceIn reps field).print ++
          Edit.patch text (before.length + field.print.length) es := by
  have reads : CsvHandler.cell text (cellAt before.length field) = field.value :=
    text_eq ▸ cell_cellAt field before after
  have whole : text.slice before.length (before.length + field.print.length) = field.print :=
    text_eq ▸ slice_append_left before field.print after
  intro raw
  by_cases nothing : reps = []
  · have absent : raw = none := by
      simp only [raw, CsvHandler.rawReplacement, nothing, List.isEmpty_nil, if_true]
    have kept : replaceIn reps field = field := by rw [replaceIn, nothing, List.isEmpty_nil, if_pos rfl]
    rw [absent, kept]
    refine ⟨ordered.advance (Nat.le_add_right _ _), ?_⟩
    rw [Option.toList_none, List.nil_append, Edit.patch_advance (Nat.le_add_right _ _) ordered,
      whole]
  · have given : ¬reps.isEmpty = true := by simpa using nothing
    have replaced : raw = some ⟨(cellAt before.length field).start,
        (cellAt before.length field).stop, CsvHandler.newRaw (cellAt before.length field).quoted
          field.value (applyReplacements field.value reps)⟩ := by
      simp only [raw, CsvHandler.rawReplacement]
      rw [if_neg given, reads]
    rw [replaced, Option.toList_some, List.singleton_append, replaceIn, if_neg given]
    generalize applyReplacements field.value reps = newVal
    cases field with
    | plain value =>
      obtain ⟨placed', patched⟩ := @patch_within text before.length _
        ⟨before.length, before.length + value.length, CsvHandler.newRaw false value newVal⟩ es
        (Nat.le_refl _) (Nat.le_add_right _ _) (Nat.le_refl _) ordered
      refine ⟨placed', patched.trans ?_⟩
      rw [slice_self, Field.print, slice_self, List.nil_append, List.append_nil, putValue,
        CsvHandler.newRaw, if_neg Bool.false_ne_true]
      by_cases quotes : CsvHandler.needsQuotes value newVal = true
      · rw [if_pos quotes, if_pos quotes, Field.print]
      · rw [if_neg quotes, if_neg quotes, Field.print]
    | quoted value trailer =>
      -- the opening quote stands before the replacement, and what closes the field behind it
      have print (value : Text) : (Field.quoted value trailer).print =
          ['"'] ++ (escape value ++ closingOf trailer) := print_quoted value trailer
      have opening : text.slice before.length (before.length + 1) = ['"'] := by
        rw [text_eq, print, List.append_assoc]
        exact slice_append_left before ['"'] _
      have behind : text.slice (before.length + 1 + (escape value).length)
          (before.length + (Field.quoted value trailer).print.length) = closingOf trailer := by
        have front : text = (before ++ ['"'] ++ escape value) ++ (closingOf trailer ++ after) := by
          rw [text_eq, print]
          simp only [List.append_assoc]
        have offset : before.length + 1 + (escape value).length =
            (before ++ ['"'] ++ escape value).length := by
          rw [List.length_append, List.length_append]
          rfl
        have stop : before.length + (Field.quoted value trailer).print.length =
            (before ++ ['"'] ++ escape value).length + (closingOf trailer).length := by
          rw [print]
          simp only [List.length_append, List.length_cons, List.length_nil]
          omega
        rw [offset, stop, front]
        exact slice_append_left _ _ _
      obtain ⟨placed', patched⟩ := @patch_within text before.length
        (before.length + (Field.quoted value trailer).print.length)
        ⟨before.length + 1, before.length + 1 + (escape value).length,
          CsvHandler.newRaw true value newVal⟩ es
        (Nat.le_succ _) (Nat.le_add_right _ _) (by
          rw [print]
          simp only [List.length_append, List.length_cons, List.length_nil]
          omega) ordered
      refine ⟨placed', patched.trans ?_⟩
      rw [opening, behind, putValue, print newVal, CsvHandler.newRaw, if_pos rfl]
      simp only [List.append_assoc]

theorem filterMap_zipIdx_cons {α β : Type} (f : α × Nat → Option β) (x : α) (xs : List α)
    (k : Nat) : ((x :: xs).zipIdx k).filterMap f =
      (f (x, k)).toList ++ (xs.zipIdx (k + 1)).filterMap f := by
  rw [List.zipIdx_cons, List.filterMap_cons]
  cases f (x, k) <;> rfl

/-- The replacements of all cells, by induction on the document: they are ordered, and together they
write the document whose fields are replaced one by one. -/
theorem patch_document (delim : Char) (spans : Nat → List Edit) {doc : Document} {k : Nat}
    {before text : Text} (text_eq : text = before ++ doc.print delim) :
    let raws := ((cellsFrom delim before.length doc).zipIdx k).filterMap fun c =>
      CsvHandler.rawReplacement text c.1 (spans c.2)
    Edit.Ordered text before.length raws ∧
      Edit.patch text before.length raws =
        (doc.mapFields (fun k => replaceIn (spans k)) k).print delim := by
  -- on the document; the cells before are in `before`, their number is `k`
  induction doc generalizing k before with
  | last field =>
    have whole : text = before ++ (field.print ++ []) := by rw [text_eq, List.append_nil]; rfl
    have ends : text.length = before.length + field.print.length := by
      rw [whole, List.append_nil, List.length_append]
    obtain ⟨ordered, patched⟩ := patch_field field (spans k) whole [] (Nat.le_of_eq ends.symm)
    simp only [cellsFrom, filterMap_zipIdx_cons, List.zipIdx_nil, List.filterMap_nil]
    refine ⟨ordered, patched.trans ?_⟩
    rw [Edit.patch, ← ends, List.drop_length, List.append_nil]
    rfl
  | closing field newline =>
    have whole : text = before ++ (field.print ++ newline.print delim) := text_eq
    have front : text = (before ++ field.print) ++ newline.print delim := by
      rw [whole, List.append_assoc]
    have inside : before.length + field.print.length ≤ text.length := by
      rw [front, List.length_append, List.length_append]
      exact Nat.le_add_right _ _
    obtain ⟨ordered, patched⟩ := patch_field field (spans k) whole [] inside
    simp only [cellsFrom, filterMap_zipIdx_cons, List.zipIdx_nil, List.filterMap_nil]
    refine ⟨ordered, patched.trans ?_⟩
    rw [Edit.patch, ← List.length_append, front, List.drop_left]
    rfl
  | cons field separator rest ih =>
    have whole : text = before ++ (field.print ++ (separator.print delim ++ rest.print delim)) := by
      rw [text_eq, Document.print, List.append_assoc]
    have front : text = (before ++ field.print ++ separator.print delim) ++ rest.print delim := by
      rw [whole]
      simp only [List.append_assoc]
    have pos : before.length + field.print.length + (separator.print delim).length =
        (before ++ field.print ++ separator.print delim).length := by
      rw [List.length_append, List.length_append]
    have between : text.slice (before.length + field.print.length)
        (before.length + field.print.length + (separator.print delim).length) =
          separator.print delim := by
      rw [← List.length_append, whole, ← List.append_assoc before]
      exact slice_append_left _ _ _
    -- what follows the separator is a document that starts behind it
    have later := @ih (k + 1) _ front
    rw [← pos] at later
    obtain ⟨ordered', patched'⟩ := later
    obtain ⟨ordered, patched⟩ := patch_field field (spans k) whole _
      (ordered'.advance (Nat.le_add_right _ _))
    simp only [cellsFrom, filterMap_zipIdx_cons]
    refine ⟨ordered, patched.trans ?_⟩
    rw [Edit.patch_advance (Nat.le_add_right _ _) ordered', between, patched']
    simp only [Document.mapFields, Document.print, List.append_assoc]

/-- The units of a table are its cells in order; the category that the header gives a column is only
passed on. -/
theorem units_fst (headerCategory : Text → Option Text) (text : Text) (delim : Char) :
    (CsvHandler.units headerCategory text delim).map Prod.fst = (csvCells text delim).flatten := by
  simp only [CsvHandler.units, List.map_flatMap, List.map_map, Function.comp_def]
  have rows : ∀ (rows : List (List Cell)) (n : Nat),
      (rows.zipIdx n).flatMap (fun row => row.1.zipIdx.map fun c => c.1) = rows.flatten := by
    intro rows
    induction rows with
    | nil => exact fun n => rfl
    | cons row rest ih =>
      intro n
      rw [List.zipIdx_cons, List.flatMap_cons, ih]
      exact congrArg (· ++ rest.flatten) (List.zipIdx_map_fst 0 row)
  exact rows _ 0

/-- No two cells start at one place, and so do no two replacements of cells: `apply_replacements`
may splice them in one after the other. -/
theorem starts_rawReplacements (delim : Char) (spans : Nat → List Edit) (doc : Document)
    (text : Text) : (((cellsFrom delim 0 doc).zipIdx 0).filterMap fun c =>
      CsvHandler.rawReplacement text c.1 (spans c.2)).Pairwise fun a b => a.start < b.start := by
  have cells : ((cellsFrom delim 0 doc).zipIdx 0).Pairwise fun a b => a.1.start < b.1.start := by
    have starts : (cellsFrom delim 0 doc).Pairwise fun a b => a.start < b.start := by
      refine (cellsFrom_apart delim doc 0).imp_of_mem fun {a b} ha _ apart => ?_
      obtain ⟨_, width, _⟩ := cellsFrom_bounds a ha
      exact Nat.lt_of_le_of_lt width apart
    rw [← List.zipIdx_map_fst 0 (cellsFrom delim 0 doc)] at starts
    have numbered := List.pairwise_map.mp starts
    exact numbered
  -- a replacement starts where its cell does, and the cells are apart
  have start {c : Cell} {reps : List Edit} {e : Edit}
      (replaced : CsvHandler.rawReplacement text c reps = some e) : e.start = c.start := by
    rw [CsvHandler.rawReplacement] at replaced
    split at replaced
    · cases replaced
    · obtain rfl := Option.some.inj replaced
      rfl
  refine List.pairwise_filterMap.mpr (cells.imp fun {a b} before e here e' here' => ?_)
  rw [start here, start here']
  exact before

/-- The handler writes a document anew field by field, with the separators and the untouched fields
as they were, if the delimiter is one that the sniffer gives. -/
theorem rewrite_document (headerCategory : Text → Option Text) {delim : Char}
    (isDelim : IsDelimiter delim) {doc : Document} (wellFormed : doc.WellFormed delim)
    (spans : Nat → List Edit) :
    CsvHandler.rewrite headerCategory (doc.print delim) delim (fun call _ _ => spans call) =
      (doc.mapFields (fun k => replaceIn (spans k)) 0).print delim := by
  have cells := units_fst headerCategory (doc.print delim) delim
  rw [flatten_csvCells isDelim wellFormed] at cells
  -- the units number the cells in the order of the document
  have numbered : (CsvHandler.units headerCategory (doc.print delim) delim).zipIdx.filterMap
        (fun unit => CsvHandler.rawReplacement (doc.print delim) unit.1.1 (spans unit.2)) =
      ((cellsFrom delim 0 doc).zipIdx 0).filterMap fun c =>
        CsvHandler.rawReplacement (doc.print delim) c.1 (spans c.2) := by
    rw [← cells, List.zipIdx_map, List.filterMap_map]
    rfl
  obtain ⟨ordered, patched⟩ := @patch_document delim spans doc 0 [] _
    (show doc.print delim = [] ++ doc.print delim from rfl)
  rw [CsvHandler.rewrite, numbered]
  exact (applyReplacements_of_starts ordered (starts_rawReplacements delim spans doc _)).trans
    patched

theorem mapFields_congr {f g : Nat → Field → Field} {doc : Document} {k : Nat}
    (same : ∀ entry ∈ doc.fields.zipIdx k, f entry.2 entry.1 = g entry.2 entry.1) :
    doc.mapFields f k = doc.mapFields g k := by
  induction doc generalizing k with
  | last field => exact congrArg Document.last (same (field, k) List.mem_cons_self)
  | closing field newline =>
    exact congrArg (Document.closing · newline) (same (field, k) List.mem_cons_self)
  | cons field separator rest ih =>
    have first : f k field = g k field := same (field, k) List.mem_cons_self
    rw [Document.mapFields, first, ih fun entry member => same entry (List.mem_cons_of_mem _ member)]
    rfl

/-- Where the replacements lie in their cells, the handler writes the document whose fields are
rewritten one by one. -/
theorem rewrite_print (headerCategory : Text → Option Text) {delim : Char}
    (isDelim : IsDelimiter delim) {doc : Document} (wellFormed : doc.WellFormed delim)
    (spans : Nat → List Edit)
    (placed : ∀ entry ∈ doc.fields.zipIdx, Placed entry.1.value (spans entry.2)) :
    CsvHandler.rewrite headerCategory (doc.print delim) delim (fun call _ _ => spans call) =
      (doc.mapFields (fun k => rewriteField (spans k)) 0).print delim := by
  have same : doc.mapFields (fun k => rewriteField (spans k)) 0 =
      doc.mapFields (fun k => replaceIn (spans k)) 0 :=
    mapFields_congr fun entry member => rewriteField_eq (placed entry member)
  rw [rewrite_document headerCategory isDelim wellFormed, same]

end RedactGate.Desktop
