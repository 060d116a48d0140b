import RedactGate.Desktop.Replacements
import RedactGate.Library.Delimited

/-!
# Tables in text files

Rewriting the cells of a CSV file, from its text to its text: bytes are decoded before and
encoded after with one code, and the delimiter is the one that the sniffer finds. What a
unit is replaced by is asked of a function that is called for every cell in turn.
-/
namespace RedactGate.Desktop

open Library Library.Delimited

/-- The raw span of a cell in the text of a table; the quotes around it do not belong to the span. -/
structure Cell where
  start : Nat
  stop : Nat
  quoted : Bool
  deriving DecidableEq, Repr

/-- How far a quoted cell goes: to the first quote that is not doubled, or to the end of the text. -/
def quotedLen : Text → Nat
  | '"' :: '"' :: rest => quotedLen rest + 2
  | '"' :: _ => 0
  | _ :: rest => quotedLen rest + 1
  | [] => 0

/-- How far it is to the next delimiter or line break. -/
def plainLen (delim : Char) (rest : Text) : Nat :=
  (rest.takeWhile fun c => !isSeparator delim c).length

/-- The cell that starts at an offset, and the offset behind it. What stands between a closing quote
and the next separator belongs to no cell. -/
def readCell (text : Text) (delim : Char) (i : Nat) : Cell × Nat :=
  if text[i]? = some '"' then
    let j := i + 1 + quotedLen (text.drop (i + 1))
    (⟨i + 1, j, true⟩, j + 1 + plainLen delim (text.drop (j + 1)))
  else
    let j := i + plainLen delim (text.drop i)
    (⟨i, j, false⟩, j)

/-- The loop of `_csv_cells` from an offset on, with the row so far. Every round comes
further in the text, so that its length is fuel enough. -/
def csvLoop (text : Text) (delim : Char) : (fuel i : Nat) → List Cell → List (List Cell)
  | 0, _, _ => []
  | fuel + 1, i, row =>
    let cell := (readCell text delim i).1
    let i := (readCell text delim i).2
    if text.length ≤ i then [row ++ [cell]]
    else if text[i]? = some delim then csvLoop text delim fuel (i + 1) (row ++ [cell])
    else
      -- a line end, of one or two characters; at the very end it opens no new row
      let i := if text[i]? = some '\r' ∧ text[i + 1]? = some '\n' then i + 2 else i + 1
      (row ++ [cell]) :: if i = text.length then [] else csvLoop text delim fuel i []

/-- `_csv_cells`. -/
def csvCells (text : Text) (delim : Char) : List (List Cell) :=
  csvLoop text delim (text.length + 1) 0 []

/-- `s.replace('""', '"')`: doubled quotes are taken together from the left to the right. -/
def unescape : Text → Text
  | '"' :: '"' :: rest => '"' :: unescape rest
  | c :: rest => c :: unescape rest
  | [] => []

namespace CsvHandler

/-- `_cell`: the value of a cell. -/
def cell (text : Text) (c : Cell) : Text :=
  if c.quoted then unescape (text.slice c.start c.stop) else text.slice c.start c.stop

/-- `_header_cats`: the first of ten rows in which a cell names a category, with the
categories of its columns. -/
def headerCats (headerCategory : Text → Option Text) (text : Text) (rows : List (List Cell)) :
    Option (Nat × List (Nat × Text)) :=
  ((rows.take 10).zipIdx.map fun row => (row.2, row.1.length, row.1.zipIdx.filterMap fun c =>
      ((headerCategory (cell text c.1)).filter (!·.isEmpty)).map fun category =>
        (c.2, category))).findSome? fun (ri, width, cats) =>
    if !cats.isEmpty && decide (2 ≤ width) then some (ri, cats) else none

/-- What the header says about the cell of a row and a column, if the row is below the header. -/
def force (header : Option (Nat × List (Nat × Text))) (ri ci : Nat) : Option Text :=
  match header with
  | some (hrow, cats) => if hrow < ri then cats.lookup ci else none
  | none => none

/-- The cells in their order, each with what the header says about it. -/
def units (headerCategory : Text → Option Text) (text : Text) (delim : Char) :
    List (Cell × Option Text) :=
  let rows := csvCells text delim
  let header := headerCats headerCategory text rows
  rows.zipIdx.flatMap fun row => row.1.zipIdx.map fun c => (c.1, force header row.2 c.2)

/-- Whether a new value has to be quoted in a cell that is not. -/
def needsQuotes (val newVal : Text) : Bool :=
  newVal.any (fun ch => ch = '"' || ch = '\n' || ch = '\r') ||
    (decide (',' ∈ newVal) && decide (',' ∉ val))

/-- The new text of a cell as it is written: escaped inside quotes, quoted if it needs that, or as
it is. -/
def newRaw (quoted : Bool) (val newVal : Text) : Text :=
  if quoted then escape newVal
  else if needsQuotes val newVal then '"' :: (escape newVal ++ ['"'])
  else newVal

/-- The replacement of a whole cell by its new text, unless nothing is to be replaced in it. -/
def rawReplacement (text : Text) (c : Cell) (reps : List Edit) : Option Edit :=
  if reps.isEmpty then none
  else some ⟨c.start, c.stop,
    newRaw c.quoted (cell text c) (applyReplacements (cell text c) reps)⟩

/-- `rewrite`. The function is told how often it has been called before, the value of the
cell and what the header says about it. -/
def rewrite (headerCategory : Text → Option Text) (text : Text) (delim : Char)
    (fn : (call : Nat) → Text → Option Text → List Edit) : Text :=
  applyReplacements text ((units headerCategory text delim).zipIdx.filterMap fun unit =>
    rawReplacement text unit.1.1 (fn unit.2 (cell text unit.1.1) unit.1.2))

end CsvHandler

/-! ## Reading a cell -/

theorem unescape_escape (value : Text) : unescape (escape value) = value := by
  induction value with
  | nil => rfl
  | cons c value ih =>
    rw [escape_cons]
    by_cases quote : c = '"'
    · subst quote
      exact congrArg ('"' :: ·) ih
    · rw [if_neg quote]
      have kept (rest : Text) : unescape (c :: rest) = c :: unescape rest := by
        rw [unescape]
        rintro rest' rfl
        exact fun _ => quote rfl
      exact (kept _).trans (congrArg (c :: ·) ih)

/-- The scanner takes a quoted cell as far as what was escaped goes, if no further quote follows the
closing one: doubled quotes do not end it. -/
theorem quotedLen_escape (value : Text) {rest : Text}
    (stop : rest = [] ∨ ∃ more, rest = '"' :: more ∧ more.head? ≠ some '"') :
    quotedLen (escape value ++ rest) = (escape value).length := by
  induction value with
  | nil =>
    rcases stop with rfl | ⟨more, rfl, free⟩
    · rfl
    · cases more with
      | nil => rfl
      | cons d more =>
        have other : d ≠ '"' := fun same => free (same ▸ rfl)
        -- a quote before another character closes the field
        have ends : quotedLen ('"' :: d :: more) = 0 := by
          rw [quotedLen]
          rintro rest' same
          exact other (List.cons.inj same).1
        exact ends
  | cons c value ih =>
    rw [escape_cons]
    by_cases quote : c = '"'
    · subst quote
      -- a quote of the value is doubled, and the pair is read as one
      have two : quotedLen ('"' :: '"' :: (escape value ++ rest)) =
          quotedLen (escape value ++ rest) + 2 := rfl
      simp only [if_true, List.cons_append, List.nil_append, List.length_cons]
      rw [two, ih]
    · have one : quotedLen (c :: (escape value ++ rest)) = quotedLen (escape value ++ rest) + 1 := by
        rw [quotedLen]
        · rintro rest' rfl
          exact fun _ => quote rfl
        · exact quote
      rw [if_neg quote, List.append_assoc, List.singleton_append, one, ih]
      rfl

end RedactGate.Desktop
