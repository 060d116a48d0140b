import RedactGate.Library.Text

/-!
# Delimited text

Tables as text: fields with separators between them. A field that starts with a quote goes
to the next quote that is not doubled, and what stands behind that, up to the separator,
belongs to no field. Nothing is rejected: a quote that is never closed takes the rest of
the text, and the text may or may not end with a line break.
-/
namespace RedactGate.Library.Delimited

inductive Separator where
  | delimiter
  | lineFeed
  | carriageReturn
  | crlf
  deriving DecidableEq

def Separator.print (delim : Char) : Separator → Text
  | delimiter => [delim]
  | lineFeed => ['\n']
  | carriageReturn => ['\r']
  | crlf => ['\r', '\n']

def isSeparator (delim c : Char) : Bool := c = delim || c = '\n' || c = '\r'

/-- Double the quotes. -/
def escape (value : Text) : Text := value.flatMap fun c => if c = '"' then ['"', '"'] else [c]

/-- A field as it is written: what stands behind the closing quote is its trailer, and a
quote that is not closed has none. -/
inductive Field where
  | plain (value : Text)
  | quoted (value : Text) (trailer : Option Text)
  deriving DecidableEq

namespace Field

def value : Field → Text
  | plain value => value
  | quoted value _ => value

def print : Field → Text
  | plain value => value
  | quoted value none => '"' :: escape value
  | quoted value (some trailer) => '"' :: (escape value ++ '"' :: trailer)

/-- A text that neither ends a field nor goes on with a quote. -/
def Harmless (delim : Char) (text : Text) : Prop :=
  (∀ c ∈ text, isSeparator delim c = false) ∧ text.head? ≠ some '"'

/-- A field that a separator can follow: no separator inside it is read as its end, and its quotes
are closed. -/
def Closed (delim : Char) : Field → Prop
  | plain value => Harmless delim value
  | quoted _ none => False
  | quoted _ (some trailer) => Harmless delim trailer

/-- A field that can end the text. -/
def Final (delim : Char) : Field → Prop
  | quoted _ none => True
  | field => field.Closed delim

end Field

/-- The fields of a text with the separators between them, up to its end or to a line break at its
end. -/
inductive Document where
  | last (field : Field)
  | closing (field : Field) (newline : Separator)
  | cons (field : Field) (separator : Separator) (rest : Document)

namespace Document

def print (delim : Char) : Document → Text
  | last field => field.print
  | closing field newline => field.print ++ newline.print delim
  | cons field separator rest => field.print ++ separator.print delim ++ rest.print delim

def fields : Document → List Field
  | last field => [field]
  | closing field _ => [field]
  | cons field _ rest => field :: rest.fields

/-- Rewrite the fields of a document by a function that is told the index of each; the separators
stay. -/
def mapFields (f : Nat → Field → Field) (k : Nat) : Document → Document
  | last field => last (f k field)
  | closing field newline => closing (f k field) newline
  | cons field separator rest => cons (f k field) separator (rest.mapFields f (k + 1))

/-- The document is read as it is written: no line feed stands behind a single carriage
return, and no field behind a line break at the end. -/
def WellFormed (delim : Char) : Document → Prop
  | last field => field.Final delim
  | closing field newline => field.Closed delim ∧ newline ≠ .delimiter
  | cons field separator rest => field.Closed delim ∧
      (separator = .carriageReturn → (rest.print delim).head? ≠ some '\n') ∧
      (separator ≠ .delimiter → rest.print delim ≠ []) ∧ rest.WellFormed delim

theorem fields_mapFields (f : Nat → Field → Field) (k : Nat) (doc : Document) :
    (doc.mapFields f k).fields = (doc.fields.zipIdx k).map fun field => f field.2 field.1 := by
  induction doc generalizing k with
  | last field => rfl
  | closing field newline => rfl
  | cons field separator rest ih => exact congrArg (f k field :: ·) (ih (k + 1))

end Document

/-! ## Reading -/

theorem escape_cons (c : Char) (value : Text) :
    escape (c :: value) = (if c = '"' then ['"', '"'] else [c]) ++ escape value :=
  List.flatMap_cons

theorem length_le_escape (value : Text) : value.length ≤ (escape value).length := by
  induction value with
  | nil => exact Nat.le_refl _
  | cons c value ih =>
    rw [escape_cons, List.length_append, List.length_cons]
    split <;> simp only [List.length_cons, List.length_nil] <;> omega

/-- Every text is an escaped value up to the first quote that is not doubled, or to its end: this is
what stands inside the quotes of a cell. -/
theorem exists_escape (body : Text) : ∃ value, body = escape value ∨
    ∃ rest, body = escape value ++ '"' :: rest ∧ rest.head? ≠ some '"' := by
  -- induction on the length: a doubled quote takes away two characters
  induction len : body.length using Nat.strongRecOn generalizing body with
  | ind n ih =>
    subst len
    cases body with
    | nil => exact ⟨[], .inl rfl⟩
    | cons c body =>
      by_cases quote : c = '"'
      · subst quote
        by_cases double : body.head? = some '"'
        · obtain ⟨body, rfl⟩ : ∃ more, body = '"' :: more := by
            cases body with
            | nil => cases double
            | cons d more => exact ⟨more, by rw [Option.some.inj double]⟩
          have shorter : body.length < ('"' :: '"' :: body).length :=
            Nat.lt_succ_of_lt (Nat.lt_succ_self _)
          obtain ⟨value, found⟩ := ih body.length shorter body rfl
          refine ⟨'"' :: value, ?_⟩
          rcases found with rfl | ⟨rest, rfl, free⟩
          · exact .inl rfl
          · exact .inr ⟨rest, rfl, free⟩
        · exact ⟨[], .inr ⟨body, rfl, double⟩⟩
      · obtain ⟨value, found⟩ := ih body.length (by simp) body rfl
        have escaped : escape (c :: value) = c :: escape value := by
          rw [escape_cons, if_neg quote]
          rfl
        refine ⟨c :: value, ?_⟩
        rcases found with rfl | ⟨rest, rfl, free⟩
        · exact .inl escaped.symm
        · exact .inr ⟨rest, by rw [escaped]; rfl, free⟩

/-- Every text is a value without separators and what follows it: nothing, or a separator and more. -/
theorem exists_harmless (delim : Char) (text : Text) : ∃ value rest, text = value ++ rest ∧
    (∀ c ∈ value, isSeparator delim c = false) ∧
    (rest = [] ∨ ∃ c more, rest = c :: more ∧ isSeparator delim c = true) := by
  refine ⟨text.takeWhile (!isSeparator delim ·), text.dropWhile (!isSeparator delim ·),
    List.takeWhile_append_dropWhile.symm, fun c member => ?_, ?_⟩
  · have kept := List.all_eq_true.mp List.all_takeWhile c member
    simpa using kept
  · cases found : text.dropWhile (!isSeparator delim ·) with
    | nil => exact .inl rfl
    | cons c more =>
      have stop := List.head?_dropWhile_not (!isSeparator delim ·) text
      rw [found] at stop
      exact .inr ⟨c, more, rfl, by simpa using stop⟩

/-- Every text begins with a field, which a separator or the end of the text follows; which of the
three kinds of field it is depends on its first quotes. -/
theorem exists_field (delim : Char) (text : Text) : ∃ field rest, text = Field.print field ++ rest ∧
    (rest = [] ∧ field.Final delim ∨
      field.Closed delim ∧ ∃ c more, rest = c :: more ∧ isSeparator delim c = true) := by
  by_cases opening : text.head? = some '"'
  · obtain ⟨body, rfl⟩ : ∃ body, text = '"' :: body := by
      cases text with
      | nil => cases opening
      | cons c body => exact ⟨body, by rw [Option.some.inj opening]⟩
    -- a quoted field runs to its closing quote, and what is between this and the separator trails
    -- it
    obtain ⟨value, rfl | ⟨tail, rfl, free⟩⟩ := exists_escape body
    · exact ⟨.quoted value none, [], (List.append_nil _).symm, .inl ⟨rfl, trivial⟩⟩
    · obtain ⟨trailer, rest, rfl, plain, stop⟩ := exists_harmless delim tail
      have harmless : Field.Harmless delim trailer := by
        refine ⟨plain, fun quote => free ?_⟩
        rw [List.head?_append, quote, Option.some_or]
      refine ⟨.quoted value (some trailer), rest, by simp [Field.print], ?_⟩
      rcases stop with rfl | stop
      · exact .inl ⟨rfl, harmless⟩
      · exact .inr ⟨harmless, stop⟩
  · obtain ⟨value, rest, rfl, plain, stop⟩ := exists_harmless delim text
    have harmless : Field.Harmless delim value := by
      refine ⟨plain, fun quote => opening ?_⟩
      rw [List.head?_append, quote, Option.some_or]
    refine ⟨.plain value, rest, rfl, ?_⟩
    rcases stop with rfl | stop
    · exact .inl ⟨rfl, harmless⟩
    · exact .inr ⟨harmless, stop⟩

theorem Field.Closed.final {delim : Char} {field : Field} (closed : field.Closed delim) :
    field.Final delim := by
  cases field with
  | plain value => exact closed
  | quoted value trailer =>
    cases trailer with
    | none => trivial
    | some trailer => exact closed

/-- The separator at which a field stops. A carriage return takes the line feed behind it along. -/
theorem exists_separator {delim c : Char} (stop : isSeparator delim c = true) (more : Text) :
    ∃ (separator : Separator) (rest : Text), c :: more = separator.print delim ++ rest ∧
      (separator = .carriageReturn → rest.head? ≠ some '\n') := by
  simp only [isSeparator, Bool.or_eq_true, decide_eq_true_eq] at stop
  rcases stop with (rfl | rfl) | rfl
  · exact ⟨.delimiter, more, rfl, fun other => Separator.noConfusion other⟩
  · exact ⟨.lineFeed, more, rfl, fun other => Separator.noConfusion other⟩
  · by_cases feed : more.head? = some '\n'
    · cases more with
      | nil => cases feed
      | cons d rest =>
        obtain rfl := Option.some.inj feed
        exact ⟨.crlf, rest, rfl, fun other => Separator.noConfusion other⟩
    · exact ⟨.carriageReturn, more, rfl, fun _ => feed⟩

/-- Every text is the writing of a well-formed document, by induction on the length: each field
takes at least its separator. -/
theorem exists_document (delim : Char) (text : Text) :
    ∃ doc : Document, doc.WellFormed delim ∧ doc.print delim = text := by
  -- induction on the length: what follows the first separator is shorter
  induction len : text.length using Nat.strongRecOn generalizing text with
  | ind n ih =>
    subst len
    obtain ⟨field, rest, rfl, ⟨rfl, final⟩ | ⟨closed, c, more, rfl, stop⟩⟩ :=
      exists_field delim text
    · exact ⟨.last field, final, (List.append_nil _).symm⟩
    · obtain ⟨separator, rest, split, clear⟩ := exists_separator stop more
      rw [split]
      by_cases ends : rest = [] ∧ separator ≠ .delimiter
      · obtain ⟨rfl, newline⟩ := ends
        exact ⟨.closing field separator, ⟨closed, newline⟩, by rw [List.append_nil]; rfl⟩
      · have shorter : rest.length < (field.print ++ c :: more).length := by
          have := congrArg List.length split
          rw [List.length_append]
          cases separator <;>
            simp only [Separator.print, List.length_cons, List.length_append, List.length_nil] at * <;>
            omega
        obtain ⟨doc, wellFormed, rfl⟩ := ih rest.length shorter rest rfl
        refine ⟨.cons field separator doc, ⟨closed, clear, fun newline none => ?_, wellFormed⟩,
          List.append_assoc _ _ _⟩
        exact ends ⟨none, newline⟩

/-! ## Reading what was not written to be read -/

/-- The number of rows of a document: a delimiter goes on with a row, and a line break begins
another one. -/
def Document.rows : Document → Nat
  | .last _ => 1
  | .closing _ _ => 1
  | .cons _ separator rest => if separator = .delimiter then rest.rows else rest.rows + 1

theorem Document.rows_pos (doc : Document) : 0 < doc.rows := by
  induction doc with
  | last field => exact Nat.one_pos
  | closing field newline => exact Nat.one_pos
  | cons field separator rest ih =>
    rw [rows]
    split
    · exact ih
    · exact Nat.succ_pos _

/-- A field that is closed, or can be read as some that are: it has no quotes and no line
breaks. -/
def Field.Loose (delim : Char) : Field → Prop
  | .plain value => Harmless delim value ∨ ∀ c ∈ value, c ≠ '"' ∧ c ≠ '\n' ∧ c ≠ '\r'
  | .quoted value trailer => (Field.quoted value trailer).Closed delim

/-- The delimiters that a field is split at. -/
def Field.splits (delim : Char) : Field → Nat
  | .plain value => value.count delim
  | .quoted _ _ => 0

theorem Field.Loose.harmless {delim : Char} {value : Text} (loose : (Field.plain value).Loose delim)
    (whole : value.count delim = 0) : Harmless delim value := by
  rcases loose with harmless | clean
  · exact harmless
  · have absent := List.count_eq_zero.mp whole
    refine ⟨fun c member => ?_, fun quote => (clean _ (List.mem_of_mem_head? quote)).1 rfl⟩
    obtain ⟨_, feed, carriage⟩ := clean c member
    have other : c ≠ delim := fun same => absent (same ▸ member)
    simp [isSeparator, feed, carriage, other]

/-- A plain value that holds delimiters is, before whatever follows it, a row of fields with these
delimiters between them: one more field for each. -/
theorem exists_split_plain {delim : Char} {value : Text} (loose : (Field.plain value).Loose delim)
    {K : Field → Document} {tail : Text} {rows fields : Nat}
    (print : ∀ field, (K field).print delim = field.print ++ tail)
    (wellFormed : ∀ field, field.Closed delim → (K field).WellFormed delim)
    (height : ∀ field, (K field).rows = rows) (width : ∀ field, (K field).fields.length = fields) :
    ∃ doc : Document, doc.WellFormed delim ∧ doc.print delim = value ++ tail ∧ doc.rows = rows ∧
      doc.fields.length = fields + value.count delim := by
  by_cases whole : value.count delim = 0
  · exact ⟨K (.plain value), wellFormed _ (loose.harmless whole), print _, height _,
      by rw [width, whole, Nat.add_zero]⟩
  -- induction on the length: the value is shorter behind its first delimiter
  have clean : ∀ c ∈ value, c ≠ '"' ∧ c ≠ '\n' ∧ c ≠ '\r' := by
    rcases loose with harmless | clean
    · have separates := harmless.1 delim (List.count_pos_iff.mp (Nat.pos_of_ne_zero whole))
      simp [isSeparator] at separates
    · exact clean
  clear whole loose
  induction len : value.length using Nat.strongRecOn generalizing value with
  | ind n ih =>
    subst len
    obtain ⟨piece, rest, rfl, plain, rfl | ⟨c, more, rfl, separates⟩⟩ := exists_harmless delim value
    · rw [List.append_nil] at clean ⊢
      have harmless : Field.Harmless delim piece :=
        ⟨plain, fun quote => (clean _ (List.mem_of_mem_head? quote)).1 rfl⟩
      have whole : piece.count delim = 0 := List.count_eq_zero.mpr fun member => by
        have separates := plain delim member
        simp [isSeparator] at separates
      exact ⟨K (.plain piece), wellFormed _ harmless, print _, height _,
        by rw [width, whole, Nat.add_zero]⟩
    · obtain ⟨_, feed, carriage⟩ := clean c (by simp)
      obtain rfl : c = delim := by simpa [isSeparator, feed, carriage] using separates
      have shorter : more.length < (piece ++ c :: more).length := by
        rw [List.length_append, List.length_cons]
        omega
      obtain ⟨doc, fine, written, rows_eq, fields_eq⟩ := ih more.length shorter
        (fun d member => clean d (by simp [member])) rfl
      have harmless : Field.Harmless c piece :=
        ⟨plain, fun quote => (clean _ (List.mem_append_left _ (List.mem_of_mem_head? quote))).1 rfl⟩
      have absent : piece.count c = 0 := List.count_eq_zero.mpr fun member => by
        have separates := plain c member
        simp [isSeparator] at separates
      refine ⟨.cons (.plain piece) .delimiter doc, ⟨harmless, nofun, fun other => absurd rfl other,
        fine⟩, ?_, rows_eq, ?_⟩
      · simp [Document.print, Field.print, Separator.print, written]
      · rw [Document.fields, List.length_cons, fields_eq, List.count_append, absent,
          List.count_cons_self]
        omega

theorem exists_split {delim : Char} {field : Field} (loose : field.Loose delim)
    {K : Field → Document} {tail : Text} {rows fields : Nat}
    (print : ∀ field, (K field).print delim = field.print ++ tail)
    (wellFormed : ∀ field, field.Closed delim → (K field).WellFormed delim)
    (height : ∀ field, (K field).rows = rows) (width : ∀ field, (K field).fields.length = fields) :
    ∃ doc : Document, doc.WellFormed delim ∧ doc.print delim = field.print ++ tail ∧
      doc.rows = rows ∧ doc.fields.length = fields + field.splits delim := by
  cases field with
  | plain value => exact exists_split_plain loose print wellFormed height width
  | quoted value trailer =>
    exact ⟨K (.quoted value trailer), wellFormed _ loose, print _, height _, width _⟩

theorem Field.Loose.closed {delim : Char} {field : Field} (loose : field.Loose delim)
    (whole : field.splits delim = 0) : field.Closed delim := by
  cases field with
  | plain value => exact loose.harmless whole
  | quoted value trailer => exact loose

/-- A document of loose fields; only the last one of all may have an open quote. -/
def Document.Loose (delim : Char) : Document → Prop
  | .last field => field.Final delim ∨ field.Loose delim
  | .closing field newline => field.Loose delim ∧ newline ≠ .delimiter
  | .cons field _ rest => field.Loose delim ∧ rest.Loose delim

/-- A line feed at the beginning of a document stands behind an empty field, which is the first of
several rows or the only one. -/
theorem Document.WellFormed.of_lineFeed {delim : Char} (isDelim : delim ≠ '\n') {doc : Document}
    (wellFormed : doc.WellFormed delim) (feed : (doc.print delim).head? = some '\n') :
    doc = .closing (.plain []) .lineFeed ∨ ∃ rest, doc = .cons (.plain []) .lineFeed rest := by
  -- a field with something in it cannot begin with a line feed, quoted or not
  have no_feed {field : Field} (final : field.Final delim) (some : field.print ≠ []) (rest : Text) :
      (field.print ++ rest).head? ≠ Option.some '\n' := by
    cases field with
    | plain value =>
      rw [List.head?_append_of_ne_nil _ some]
      intro feed
      have separates := final.1 '\n' (List.mem_of_mem_head? feed)
      simp [isSeparator] at separates
    | quoted value trailer => cases trailer <;> simp [Field.print]
  have line {separator : Separator} {rest : Text}
      (feed : (separator.print delim ++ rest).head? = some '\n') : separator = .lineFeed := by
    cases separator with
    | delimiter => exact absurd (Option.some.inj feed) isDelim
    | lineFeed => rfl
    | carriageReturn => simp [Separator.print] at feed
    | crlf => simp [Separator.print] at feed
  have empty {field : Field} (nothing : field.print = []) : field = .plain [] := by
    cases field with
    | plain value => exact congrArg Field.plain nothing
    | quoted value trailer => cases trailer <;> simp [Field.print] at nothing
  cases doc with
  | last field =>
    by_cases nothing : field.print = []
    · simp [Document.print, nothing] at feed
    · have other := no_feed wellFormed nothing []
      rw [List.append_nil] at other
      exact absurd feed other
  | closing field newline =>
    by_cases nothing : field.print = []
    · rw [Document.print, nothing, List.nil_append, ← List.append_nil (newline.print delim)] at feed
      exact .inl (by rw [empty nothing, line feed])
    · exact absurd feed (no_feed wellFormed.1.final nothing _)
  | cons field separator rest =>
    rw [Document.print, List.append_assoc] at feed
    by_cases nothing : field.print = []
    · rw [nothing, List.nil_append] at feed
      exact .inr ⟨rest, by rw [empty nothing, line feed]⟩
    · exact absurd feed (no_feed wellFormed.1.final nothing _)

/-- A loose document is read as one with no more rows, and with more fields if the rows are as
many, unless it is read as it is written. -/
theorem Document.Loose.exists_read {delim : Char} (isDelim : delim ≠ '\n') {doc : Document}
    (loose : doc.Loose delim) : ∃ read : Document, read.WellFormed delim ∧
      read.print delim = doc.print delim ∧ read.rows ≤ doc.rows ∧
        (read.rows = doc.rows → read.fields.length = doc.fields.length → doc.WellFormed delim) ∧
          (read.rows = doc.rows → doc.fields.length ≤ read.fields.length) := by
  -- on the document as it was meant; `read` is what a reader makes of it
  induction doc with
  | last field =>
    rcases loose with final | loose
    · exact ⟨.last field, final, rfl, Nat.le_refl _, fun _ _ => final, fun _ => Nat.le_refl _⟩
    · obtain ⟨read, wellFormed, print, rows, fields⟩ := @exists_split delim field loose .last [] 1 1
        (fun _ => (List.append_nil _).symm) (fun _ closed => closed.final) (fun _ => rfl)
        (fun _ => rfl)
      refine ⟨read, wellFormed, print.trans (List.append_nil _), Nat.le_of_eq rows,
        fun _ same => ?_, fun _ => by rw [fields]; exact Nat.le_add_right _ _⟩
      rw [fields] at same
      exact (loose.closed (Nat.add_eq_left.mp same)).final
  | closing field newline =>
    obtain ⟨loose, line⟩ := loose
    obtain ⟨read, wellFormed, print, rows, fields⟩ := @exists_split delim field loose
      (.closing · newline) (newline.print delim) 1 1 (fun _ => rfl)
      (fun _ closed => ⟨closed, line⟩) (fun _ => rfl) (fun _ => rfl)
    refine ⟨read, wellFormed, print, Nat.le_of_eq rows, fun _ same => ?_,
      fun _ => by rw [fields]; exact Nat.le_add_right _ _⟩
    rw [fields] at same
    exact ⟨loose.closed (Nat.add_eq_left.mp same), line⟩
  | cons field separator rest ih =>
    obtain ⟨loose, later⟩ := loose
    obtain ⟨read, wellFormed, print, fewer, same, more⟩ := ih later
    have height := rest.rows_pos
    by_cases vanishes : separator ≠ .delimiter ∧ read.print delim = []
    · -- the last row is written with nothing
      obtain ⟨line, nothing⟩ := vanishes
      obtain ⟨read', wellFormed', print', rows', _⟩ := @exists_split delim field loose
        (.closing · separator) (separator.print delim) 1 1 (fun _ => rfl)
        (fun _ closed => ⟨closed, line⟩) (fun _ => rfl) (fun _ => rfl)
      have less : read'.rows < (cons field separator rest).rows := by
        rw [rows', rows, if_neg line]
        omega
      refine ⟨read', wellFormed', ?_, Nat.le_of_lt less, fun eq => absurd eq (Nat.ne_of_lt less),
        fun eq => absurd eq (Nat.ne_of_lt less)⟩
      rw [print', Document.print, ← print, nothing, List.append_nil]
    by_cases merges : separator = .carriageReturn ∧ (read.print delim).head? = some '\n'
    · -- the two characters are one line break
      obtain ⟨rfl, feed⟩ := merges
      have counted : (cons field .carriageReturn rest).rows = rest.rows + 1 := if_neg nofun
      rcases wellFormed.of_lineFeed isDelim feed with rfl | ⟨behind, rfl⟩
      · obtain ⟨read', wellFormed', print', rows', _⟩ := @exists_split delim field loose
          (.closing · .crlf) ['\r', '\n'] 1 1 (fun _ => rfl) (fun _ closed => ⟨closed, nofun⟩)
          (fun _ => rfl) (fun _ => rfl)
        have less : read'.rows < (cons field .carriageReturn rest).rows := by omega
        refine ⟨read', wellFormed', ?_, Nat.le_of_lt less, fun eq => absurd eq (Nat.ne_of_lt less),
          fun eq => absurd eq (Nat.ne_of_lt less)⟩
        rw [print', Document.print, ← print]
        simp [Document.print, Field.print, Separator.print]
      · obtain ⟨_, _, some, fine⟩ := wellFormed
        obtain ⟨read', wellFormed', print', rows', _⟩ := @exists_split delim field loose
          (.cons · .crlf behind) (['\r', '\n'] ++ behind.print delim) (behind.rows + 1)
          (behind.fields.length + 1) (fun _ => List.append_assoc _ _ _)
          (fun _ closed => ⟨closed, nofun, fun _ => some nofun, fine⟩) (fun _ => if_neg nofun)
          (fun _ => rfl)
        have counted' : (cons (.plain []) .lineFeed behind).rows = behind.rows + 1 := if_neg nofun
        have less : read'.rows < (cons field .carriageReturn rest).rows := by omega
        refine ⟨read', wellFormed', ?_, Nat.le_of_lt less, fun eq => absurd eq (Nat.ne_of_lt less),
          fun eq => absurd eq (Nat.ne_of_lt less)⟩
        rw [print', Document.print, ← print]
        simp [Document.print, Field.print, Separator.print]
    · have clear : separator = .carriageReturn → (read.print delim).head? ≠ some '\n' :=
        fun carriage feed => merges ⟨carriage, feed⟩
      have some : separator ≠ .delimiter → read.print delim ≠ [] :=
        fun line nothing => vanishes ⟨line, nothing⟩
      obtain ⟨read', wellFormed', print', rows', fields'⟩ := @exists_split delim field loose
        (.cons · separator read) (separator.print delim ++ read.print delim)
        (cons field separator read).rows (read.fields.length + 1)
        (fun _ => List.append_assoc _ _ _) (fun _ closed => ⟨closed, clear, some, wellFormed⟩)
        (fun _ => rfl) (fun _ => rfl)
      have rows_iff : read'.rows = (cons field separator rest).rows ↔ read.rows = rest.rows := by
        rw [rows', rows, rows]
        split <;> omega
      refine ⟨read', wellFormed', ?_, ?_, fun eq eq' => ?_, fun eq => ?_⟩
      · rw [print', print, Document.print, List.append_assoc]
      · rw [rows', rows, rows]
        split <;> omega
      · have at_least := more (rows_iff.mp eq)
        rw [fields', fields, List.length_cons] at eq'
        have whole : field.splits delim = 0 := by omega
        refine ⟨loose.closed whole, ?_, ?_, same (rows_iff.mp eq) (by omega)⟩
        · exact print ▸ clear
        · exact print ▸ some
      · have at_least := more (rows_iff.mp eq)
        rw [fields', fields, List.length_cons]
        omega

end RedactGate.Library.Delimited
