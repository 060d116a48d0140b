import RedactGate.Desktop.RecordedDocuments
import RedactGate.Desktop.RenderedLabels

/-!
# Legible copies

What has to stand around the replaced spans for the labels to be found again: no character that
joins a label before or behind a span, and one character at least between two of them.
-/
namespace RedactGate.Desktop

open Library

variable {casing : Casing} {text : Text} {reps : List Replacement} {pos pos' : Nat}

/-- Nothing beside the spans joins what is put in for them, and they do not touch. -/
structure SpacedOut (casing : Casing) (text : Text) (reps : List Replacement) : Prop where
  opened : ∀ r ∈ reps, EndsOpen (joinsLabel casing) (text.take r.start)
  closed : ∀ r ∈ reps, StartsOpen casing.isWord (text.drop r.stop)
  apart : reps.Pairwise fun a b => a.stop < b.start

/-- The stretch of the text between two spans ends as the whole text before the second span does: it
is not empty, or there is no first span. -/
theorem endsOpen_gap {word : Char → Bool} {start : Nat} (inside : start ≤ text.length)
    (opened : EndsOpen word (text.take start)) (gap : pos = 0 ∨ pos < start) :
    EndsOpen word (text.slice pos start) ∧ (pos < start → text.slice pos start ≠ []) := by
  have some : pos < start → text.slice pos start ≠ [] := fun before none => by
    have length := @Text.length_slice text pos start inside
    rw [none, List.length_nil] at length
    omega
  refine ⟨fun c last => opened c ?_, some⟩
  rcases gap with rfl | before
  · exact last
  · have whole : text.take pos ++ text.slice pos start = text.take start := by
      have parts := @Text.slice_append_slice text 0 pos start (Nat.zero_le _) (Nat.le_of_lt before)
      exact parts
    rw [← whole, List.getLast?_append_of_ne_nil _ (some before)]
    exact last

/-- What the copy has behind a span begins as the text does there, if no other replacement starts at
this very place. -/
theorem startsOpen_patch {word : Char → Bool}
    (ordered : Edit.Ordered text pos (reps.map Replacement.toEdit))
    (closed : StartsOpen word (text.drop pos)) (apart : ∀ r ∈ reps, pos < r.start) :
    StartsOpen word (Edit.patch text pos (reps.map Replacement.toEdit)) := by
  cases reps with
  | nil => exact closed
  | cons r reps =>
    have before := apart r List.mem_cons_self
    have inside : r.start ≤ text.length := Nat.le_trans ordered.2.1 ordered.2.2.le_length
    have split : text.slice pos r.start ++ text.drop r.start = text.drop pos := by
      rw [Text.slice_eq_take_drop, ← Nat.add_sub_cancel' (Nat.le_of_lt before), ← List.drop_drop,
        Nat.add_sub_cancel_left]
      exact List.take_append_drop _ _
    -- the first label stands further on, so the patch begins with a character of the text
    have some : text.slice pos r.start ≠ [] := fun none => by
      have length := @Text.length_slice text pos r.start inside
      rw [none, List.length_nil] at length
      omega
    intro c head
    refine closed c ?_
    rw [List.map_cons, Edit.patch, List.append_assoc, List.head?_append_of_ne_nil _ some] at head
    rw [← split, List.head?_append_of_ne_nil _ some]
    exact head

/-- Around every label that is put in, the copy is open for the search as the text is around the
span, since no two spans of the replacements touch. -/
theorem exists_around (ordered : Edit.Ordered text pos (reps.map Replacement.toEdit))
    (spaced : SpacedOut casing text reps) (gap : pos = 0 ∨ ∀ r ∈ reps, pos < r.start)
    {hit : LabelHit} (member : hit ∈ insertedHits pos pos' reps) : ∃ front back,
      Edit.patch text pos (reps.map Replacement.toEdit) = front ++ hit.text ++ back ∧
        hit.start = pos' + front.length ∧ hit.stop = hit.start + hit.text.length ∧
          (∃ r ∈ reps, r.category = hit.category ∧ r.n = hit.number ∧ r.new = hit.text) ∧
            EndsOpen (joinsLabel casing) front ∧ StartsOpen casing.isWord back ∧
              ((∀ r ∈ reps, pos < r.start) → front ≠ []) := by
  induction reps generalizing pos pos' with
  | nil => cases member
  | cons r reps ih =>
    obtain ⟨opened, closed, apart⟩ := spaced
    obtain ⟨open_here, open_later⟩ := List.forall_mem_cons.mp opened
    obtain ⟨closed_here, closed_later⟩ := List.forall_mem_cons.mp closed
    obtain ⟨behind, later⟩ := List.pairwise_cons.mp apart
    obtain ⟨before, proper, rest⟩ := ordered
    have inside : r.start ≤ text.length := Nat.le_trans proper rest.le_length
    have width : (text.slice pos r.start).length = r.start - pos := Text.length_slice inside
    rcases List.mem_cons.mp member with rfl | member
    · refine ⟨text.slice pos r.start, Edit.patch text r.stop (reps.map Replacement.toEdit), rfl,
        congrArg (pos' + ·) width.symm, rfl, ⟨r, List.mem_cons_self, rfl, rfl, rfl⟩, ?_, ?_, ?_⟩
      · exact (endsOpen_gap inside open_here (gap.imp_right fun all => all r List.mem_cons_self)).1
      · exact startsOpen_patch rest closed_here behind
      · intro all
        have clear := all r List.mem_cons_self
        exact (endsOpen_gap inside open_here (.inr clear)).2 clear
    · obtain ⟨front, back, split, start, stop, ⟨r', among, same⟩, open_front, open_back, some⟩ :=
        ih rest ⟨open_later, closed_later, later⟩ (.inr behind) member
      -- the gap before a later span is not empty, so the front ends in it
      have some := some behind
      refine ⟨text.slice pos r.start ++ r.new ++ front, back, ?_, ?_, stop,
        ⟨r', List.mem_cons_of_mem _ among, same⟩, ?_, open_back, fun _ => ?_⟩
      · simp only [List.map_cons, Edit.patch, split, List.append_assoc]
      · simp only [start, List.length_append, width]
        omega
      · intro c last
        rw [List.getLast?_append_of_ne_nil _ some] at last
        exact open_front c last
      · exact List.append_ne_nil_of_right_ne_nil _ some

/-- What is put in is the label of an entity of a category that has words, with a number of six
digits at most. -/
def Labelled (casing : Casing) (lang : Text) (r : Replacement) : Prop :=
  HasWord r.category ∧ r.n ≤ 999999 ∧ r.new = render casing r.category r.n lang

/-- If the text had no labels, and the spans of the labels stand apart from words and from one
another, then the search finds in the copy exactly the labels put in. -/
theorem legible_of_spacedOut (tables : LabelTables casing) {lang : Text}
    (placed : Placed text (reps.map Replacement.toEdit)) (none : findLabels casing text = [])
    (labelled : ∀ r ∈ reps, Labelled casing lang r) (spaced : SpacedOut casing text reps) :
    UnitCopy.Legible casing ⟨text, reps⟩ := by
  rw [UnitCopy.Legible, UnitCopy.copy, applyReplacements_eq placed]
  refine findLabels_eq_insertedHits tables placed none fun hit member => ?_
  obtain ⟨front, back, split, start, stop, ⟨r, among, category, number, new⟩, opened, closed, _⟩ :=
    exists_around placed.ordered spaced (.inl rfl) member
  obtain ⟨known, bound, written⟩ := labelled r among
  have word : hit.text = render casing hit.category hit.number lang := by
    rw [← new, written, category, number]
  have here := hitAt_render tables (category ▸ known) (number ▸ bound) lang (word ▸ split) opened
    closed
  rw [Nat.zero_add] at start
  refine mem_findLabels.mpr ?_
  rwa [← word, ← start, ← stop] at here

end RedactGate.Desktop
