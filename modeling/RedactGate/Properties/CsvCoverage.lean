import RedactGate.Desktop.Tables

/-!
# What the table scanner sees

The cells of a table lie in the text, one after the other. What lies outside of them is
separators and quotes, but for what stands behind the closing quote of a cell: the scanner
goes on to the next separator from there, and no cell has what it passes over.
-/
namespace RedactGate.Desktop

open Library Library.Delimited

def Cell.Covers (c : Cell) (i : Nat) : Prop := c.start ≤ i ∧ i < c.stop

instance (c : Cell) (i : Nat) : Decidable (c.Covers i) := inferInstanceAs (Decidable (_ ∧ _))

/-- The scanner comes to an end, its cells lie in the text in order and apart, and all that
lies outside of them is delimiters, line breaks and quotes. -/
structure SeesAll (text : Text) (delim : Char) : Prop where
  terminates : ∀ fuel, text.length < fuel → csvLoop text delim fuel 0 [] = csvCells text delim
  inside : ∀ c ∈ (csvCells text delim).flatten, c.start ≤ c.stop ∧ c.stop ≤ text.length
  apart : (csvCells text delim).flatten.Pairwise fun a b => a.stop < b.start
  covered : ∀ (i : Nat) (c : Char), text[i]? = some c →
    (∀ cell ∈ (csvCells text delim).flatten, ¬cell.Covers i) →
      c = delim ∨ c = '\r' ∨ c = '\n' ∨ c = '"'

/-- A closing quote stands at the end of the text or before a separator. -/
def Field.Ends : Field → Prop
  | .quoted _ (some trailer) => trailer = []
  | _ => True

/-- Every closing quote of the text stands at its end or before a separator. -/
def QuotesEnd (text : Text) (delim : Char) : Prop :=
  ∃ doc : Document, doc.WellFormed delim ∧ doc.print delim = text ∧
    ∀ field ∈ doc.fields, Field.Ends field

/-! ## What they leave out -/

/-- A field whose closing quote, if it has one, ends it has a cell that leaves out its quotes only:
every other character lies within the span of the cell. -/
theorem covered_field {field : Field} (ends : Field.Ends field) {pos i : Nat} {c : Char}
    (here : field.print[i]? = some c) (outside : ¬(cellAt pos field).Covers (pos + i)) :
    c = '"' := by
  cases field with
  | plain value =>
    have inside := (List.getElem?_eq_some_iff.mp here).1
    exact absurd ⟨Nat.le_add_right _ _, Nat.add_lt_add_left inside pos⟩ outside
  | quoted value trailer =>
    have closing : ∀ d ∈ closingOf trailer, d = '"' := by
      cases trailer with
      | none => exact fun d none => absurd none List.not_mem_nil
      | some trailer =>
        obtain rfl : trailer = [] := ends
        exact fun d member => List.mem_singleton.mp member
    rw [print_quoted] at here
    cases i with
    | zero => exact (Option.some.inj here).symm
    | succ i =>
      have here : (escape value ++ closingOf trailer)[i]? = some c := here
      have behind : (escape value).length ≤ i := by
        by_contra within
        exact outside ⟨by simp only [cellAt]; omega, by simp only [cellAt]; omega⟩
      rw [List.getElem?_append_right behind] at here
      exact closing c (List.mem_of_getElem? here)

theorem isSeparator_of_mem {delim c : Char} {separator : Separator}
    (member : c ∈ separator.print delim) : isSeparator delim c = true := by
  cases separator with
  | delimiter => simpa [isSeparator] using .inl (.inl (List.mem_singleton.mp member))
  | lineFeed => simpa [isSeparator] using .inl (.inr (List.mem_singleton.mp member))
  | carriageReturn => simpa [isSeparator] using .inr (List.mem_singleton.mp member)
  | crlf =>
    rcases List.mem_cons.mp member with rfl | member
    · simp [isSeparator]
    · obtain rfl := List.mem_singleton.mp member
      simp [isSeparator]

theorem covered_document {delim : Char} {doc : Document}
    (ends : ∀ field ∈ doc.fields, Field.Ends field) {pos i : Nat} {c : Char}
    (here : (doc.print delim)[i]? = some c)
    (outside : ∀ cell ∈ cellsFrom delim pos doc, ¬cell.Covers (pos + i)) :
    c = '"' ∨ isSeparator delim c = true := by
  induction doc generalizing pos i with
  | last field =>
    exact .inl (covered_field (ends field List.mem_cons_self) here
      (outside _ List.mem_cons_self))
  | closing field newline =>
    rw [Document.print] at here
    by_cases within : i < field.print.length
    · rw [List.getElem?_append_left within] at here
      exact .inl (covered_field (ends field List.mem_cons_self) here
        (outside _ List.mem_cons_self))
    · rw [List.getElem?_append_right (Nat.le_of_not_lt within)] at here
      exact .inr (isSeparator_of_mem (List.mem_of_getElem? here))
  | cons field separator rest ih =>
    rw [Document.print, List.append_assoc] at here
    by_cases within : i < field.print.length
    · rw [List.getElem?_append_left within] at here
      exact .inl (covered_field (ends field List.mem_cons_self) here
        (outside _ List.mem_cons_self))
    · rw [List.getElem?_append_right (Nat.le_of_not_lt within)] at here
      -- in the field, in the separator, or behind both
      by_cases between : i - field.print.length < (separator.print delim).length
      · rw [List.getElem?_append_left between] at here
        exact .inr (isSeparator_of_mem (List.mem_of_getElem? here))
      · rw [List.getElem?_append_right (Nat.le_of_not_lt between)] at here
        refine @ih (fun field member => ends field (List.mem_cons_of_mem _ member))
          (pos + field.print.length + (separator.print delim).length) _ here fun cell member => ?_
        have offset : pos + field.print.length + (separator.print delim).length +
            (i - field.print.length - (separator.print delim).length) = pos + i := by omega
        rw [offset]
        exact outside cell (List.mem_cons_of_mem _ member)

/-- A field that goes on behind its closing quote has a character there, neither a quote nor a
separator, which lies in no cell of the document. -/
theorem exists_uncovered {delim : Char} {doc : Document} (wellFormed : doc.WellFormed delim)
    {field : Field} (among : field ∈ doc.fields) (goesOn : ¬Field.Ends field) (pos : Nat) :
    ∃ i c, (doc.print delim)[i]? = some c ∧
      (∀ cell ∈ cellsFrom delim pos doc, ¬cell.Covers (pos + i)) ∧
        c ≠ '"' ∧ isSeparator delim c = false := by
  -- the first character behind the closing quote of the field
  have behind {field : Field} (final : field.Final delim) (goesOn : ¬Field.Ends field) :
      ∃ i c, i < field.print.length ∧ field.print[i]? = some c ∧
        (∀ pos, (cellAt pos field).stop ≤ pos + i) ∧ c ≠ '"' ∧ isSeparator delim c = false := by
    cases field with
    | plain value => exact absurd trivial goesOn
    | quoted value trailer =>
      cases trailer with
      | none => exact absurd trivial goesOn
      | some trailer =>
        cases trailer with
        | nil => exact absurd rfl goesOn
        | cons c trailer =>
          have harmless : Field.Harmless delim (c :: trailer) := final
          refine ⟨(escape value).length + 2, c, ?_, ?_, fun pos => ?_, fun quote => ?_,
            harmless.1 c List.mem_cons_self⟩
          · simp only [Field.print, List.length_cons, List.length_append]
            omega
          · rw [Field.print, List.getElem?_cons_succ,
              List.getElem?_append_right (Nat.le_succ _), Nat.succ_sub (Nat.le_refl _), Nat.sub_self]
            rfl
          · simp only [cellAt]
            omega
          · exact harmless.2 (congrArg some quote)
  induction doc generalizing pos with
  | last first =>
    obtain rfl := List.mem_singleton.mp among
    obtain ⟨i, c, _, here, stop, free⟩ := behind wellFormed goesOn
    refine ⟨i, c, here, fun cell member covers => ?_, free⟩
    obtain rfl := List.mem_singleton.mp member
    exact Nat.not_lt_of_le (stop pos) covers.2
  | closing first newline =>
    obtain rfl := List.mem_singleton.mp among
    obtain ⟨i, c, within, here, stop, free⟩ := behind wellFormed.1.final goesOn
    refine ⟨i, c, ?_, fun cell member covers => ?_, free⟩
    · rw [Document.print, List.getElem?_append_left within, here]
    · obtain rfl := List.mem_singleton.mp member
      exact Nat.not_lt_of_le (stop pos) covers.2
  | cons first separator rest ih =>
    obtain ⟨closed, _, _, wellFormed⟩ := wellFormed
    rcases List.mem_cons.mp among with rfl | among
    · obtain ⟨i, c, within, here, stop, free⟩ := behind closed.final goesOn
      refine ⟨i, c, ?_, fun cell member covers => ?_, free⟩
      · rw [Document.print, List.append_assoc, List.getElem?_append_left within, here]
      · rcases List.mem_cons.mp member with rfl | member
        · exact Nat.not_lt_of_le (stop pos) covers.2
        · -- the other cells start behind the field
          obtain ⟨start, _, _⟩ := cellsFrom_bounds cell member
          have after := covers.1
          omega
    · obtain ⟨i, c, here, outside, free⟩ :=
        ih wellFormed among (pos + first.print.length + (separator.print delim).length)
      refine ⟨first.print.length + (separator.print delim).length + i, c, ?_, fun cell member => ?_,
        free⟩
      · rw [Document.print, ← List.length_append, List.getElem?_append_right (Nat.le_add_right _ _),
          Nat.add_sub_cancel_left, here]
      · rw [← Nat.add_assoc, ← Nat.add_assoc]
        rcases List.mem_cons.mp member with rfl | member
        · obtain ⟨_, _, stop⟩ := cellAt_bounds pos first
          intro covers
          have before := covers.2
          omega
        · exact outside cell member

section

variable (text : Text) {delim : Char} (isDelim : IsDelimiter delim)

include isDelim

/-- More fuel than the text is long changes nothing. -/
theorem csvLoop_ends {fuel : Nat} (enough : text.length < fuel) :
    csvLoop text delim fuel 0 [] = csvCells text delim := by
  obtain ⟨doc, wellFormed, rfl⟩ := exists_document delim text
  rw [csvCells_print isDelim wellFormed]
  exact csvLoop_print isDelim wellFormed [] enough

theorem csvCells_inside : ∀ c ∈ (csvCells text delim).flatten,
    c.start ≤ c.stop ∧ c.stop ≤ text.length := by
  obtain ⟨doc, wellFormed, rfl⟩ := exists_document delim text
  intro c member
  rw [flatten_csvCells isDelim wellFormed] at member
  obtain ⟨_, width, stop⟩ := cellsFrom_bounds c member
  exact ⟨width, by omega⟩

theorem csvCells_apart : (csvCells text delim).flatten.Pairwise fun a b => a.stop < b.start := by
  obtain ⟨doc, wellFormed, rfl⟩ := exists_document delim text
  rw [flatten_csvCells isDelim wellFormed]
  exact cellsFrom_apart delim doc 0

end

/-- The scanner sees all of a text exactly when no closing quote is followed by anything but a
separator: what stands between such a quote and the next separator is in no cell. The delimiter is
neither a quote nor a line break. -/
theorem seesAll_iff (text : Text) (delim : Char) (isDelim : IsDelimiter delim) :
    SeesAll text delim ↔ QuotesEnd text delim := by
  constructor
  · intro sees
    obtain ⟨doc, wellFormed, rfl⟩ := exists_document delim text
    refine ⟨doc, wellFormed, rfl, fun field among => ?_⟩
    by_contra goesOn
    -- what trails a closing quote is in no cell, and is neither quote nor separator
    obtain ⟨i, c, here, outside, quote, plain⟩ := exists_uncovered wellFormed among goesOn 0
    have either := sees.covered i c here fun cell member => by
      rw [flatten_csvCells isDelim wellFormed] at member
      exact Nat.zero_add i ▸ outside cell member
    simp only [isSeparator, Bool.or_eq_false_iff, decide_eq_false_iff_not] at plain
    rcases either with same | same | same | same
    · exact plain.1.1 same
    · exact plain.2 same
    · exact plain.1.2 same
    · exact quote same
  · rintro ⟨doc, wellFormed, rfl, ends⟩
    refine ⟨fun fuel enough => csvLoop_ends _ isDelim enough, csvCells_inside _ isDelim,
      csvCells_apart _ isDelim, fun i c here outside => ?_⟩
    have either := @covered_document delim doc ends 0 i c here fun cell member => by
      rw [Nat.zero_add]
      exact outside cell ((flatten_csvCells isDelim wellFormed).symm ▸ member)
    simp only [isSeparator, Bool.or_eq_true, decide_eq_true_eq] at either
    tauto

/-! ## Two tables -/

def quotedTable : Text := "\"Ann\",5".toList

theorem seesAll_quotedTable : SeesAll quotedTable ',' := by
  have isDelim : IsDelimiter ',' := by unfold IsDelimiter; decide
  refine (seesAll_iff quotedTable ',' isDelim).mpr
    ⟨.cons (.quoted ['A', 'n', 'n'] (some [])) .delimiter (.last (.plain ['5'])), ?_, rfl, ?_⟩
  · exact ⟨⟨by simp, by simp⟩, nofun, fun other => absurd rfl other, by simp [isSeparator],
      by simp⟩
  · exact List.forall_mem_cons.mpr ⟨rfl, List.forall_mem_singleton.mpr trivial⟩

/-- A name that stands behind a closing quote. -/
def trailingTable : Text := "\"Ann\" Lee,5".toList

theorem trailingTable_unseen : IsDelimiter ',' ∧ ¬SeesAll trailingTable ',' := by
  refine ⟨by unfold IsDelimiter; decide, fun sees => ?_⟩
  have outside : ∀ cell ∈ (csvCells trailingTable ',').flatten, ¬cell.Covers 6 := by decide
  have either := sees.covered 6 'L' rfl outside
  exact absurd either (by decide)

end RedactGate.Desktop
