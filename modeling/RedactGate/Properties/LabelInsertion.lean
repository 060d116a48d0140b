import RedactGate.Desktop.RenderedLabels

/-!
# Labels in a text

Labels of any of the categories that have words of their own, in any language, are found again
wherever they are put into a text, as long as nothing beside them joins them.
-/
namespace RedactGate.Desktop

open Library

/-- What is put in is the label of an entity in some language. -/
def Rendered (casing : Casing) (r : Replacement) : Prop :=
  HasWord r.category ∧ 1 ≤ r.n ∧ r.n ≤ 999999 ∧ ∃ lang, r.new = render casing r.category r.n lang

/-- The labels that are put into a text are found where they stand, with their categories and
numbers, and what else is found meets none of them. The categories have label words and the numbers
are from 1 to 999999; in the copy no character before a label joins it, and none behind it continues
a word. -/
theorem findLabels_inserted {casing : Casing} (tables : LabelTables casing) {text copy : Text}
    {reps : List Replacement} (ordered : Edit.Ordered text 0 (reps.map Replacement.toEdit))
    (patched : copy = Edit.patch text 0 (reps.map Replacement.toEdit))
    (rendered : ∀ r ∈ reps, Rendered casing r)
    (opened : ∀ label ∈ insertedHits 0 0 reps,
      EndsOpen (joinsLabel casing) (copy.take label.start))
    (closed : ∀ label ∈ insertedHits 0 0 reps,
      StartsOpen casing.isWord (copy.drop label.stop)) :
    ∀ label ∈ insertedHits 0 0 reps, label ∈ findLabels casing copy ∧
      ∀ hit ∈ findLabels casing copy, hit ≠ label →
        hit.stop ≤ label.start ∨ label.stop ≤ hit.start := by
  intro label member
  obtain ⟨front, back, split, start, stop, r, among, category, number, new⟩ :=
    exists_of_mem_insertedHits ordered member
  obtain ⟨known, _, bound, lang, written⟩ := rendered r among
  rw [← patched] at split
  rw [Nat.zero_add] at start
  have found : label ∈ findLabels casing copy := by
    have before := opened label member
    have behind := closed label member
    rw [split, start, List.append_assoc, List.take_left] at before
    rw [split, stop, start, ← List.length_append, List.drop_left] at behind
    have word : label.text = render casing label.category label.number lang := by
      rw [← new, written, category, number]
    -- the pattern matches at the label as a whole, because nothing beside it belongs to it
    have here := hitAt_render tables (category ▸ known) (number ▸ bound) lang (word ▸ split) before
      behind
    refine mem_findLabels.mpr ?_
    rwa [← word, ← start, ← stop] at here
  exact ⟨found, fun hit among other => apart_of_mem_findLabels among found other⟩

/-- A person's label and a company's in two languages are put into a text, and the search finds
these two labels at their places. -/
theorem findLabels_inserted_sentence :
    let reps : List Replacement :=
      [⟨⟨0, 0, "Фізособа-1".toList⟩, "PERSON".toList, 1, []⟩,
        ⟨⟨7, 7, "Company-12".toList⟩, "ORG".toList, 12, []⟩]
    ∀ label ∈ insertedHits 0 0 reps,
      label ∈ findLabels Casing.cyrillic "Фізособа-1 проти Company-12".toList ∧
        ∀ hit ∈ findLabels Casing.cyrillic "Фізособа-1 проти Company-12".toList, hit ≠ label →
          hit.stop ≤ label.start ∨ label.stop ≤ hit.start := by
  intro reps
  refine @findLabels_inserted Casing.cyrillic labelTables_cyrillic " проти ".toList _ reps
    (by simp [reps, Edit.Ordered]) (by decide) ?_ (by decide) (by decide)
  have person : HasWord "PERSON".toList := ⟨_, List.mem_cons_self, rfl⟩
  have company : HasWord "ORG".toList := ⟨_, List.mem_cons_of_mem _ List.mem_cons_self, rfl⟩
  simp only [reps, List.forall_mem_cons]
  exact ⟨⟨person, by decide, by decide, "uk".toList, by decide⟩,
    ⟨company, by decide, by decide, "en".toList, by decide⟩, List.forall_mem_nil _⟩

end RedactGate.Desktop
