import RedactGate.Desktop.Nodes

/-!
# Replacements in nodes and in plain text

Writing replacements back to the nodes of a text changes the joined text as a plain
replacement does, and changes no node that no replacement reaches into.
-/
namespace RedactGate.Desktop

open Library

/-- Replacements of non-empty stretches of the text, no two of which overlap, in any order. -/
structure Separate (length : Nat) (reps : List Edit) : Prop where
  apart : reps.Pairwise fun a b => a.stop ≤ b.start ∨ b.stop ≤ a.start
  proper : ∀ r ∈ reps, r.start < r.stop ∧ r.stop ≤ length

theorem Separate.perm {length : Nat} {reps reps' : List Edit} (separate : Separate length reps)
    (perm : reps'.Perm reps) : Separate length reps' where
  apart := (perm.pairwise_iff fun {_ _} h => h.symm).mpr separate.apart
  proper := fun r member => separate.proper r (perm.mem_iff.mp member)

/-- Separate edits, sorted by descending starts, come in the order in which the pass from right to
left takes them. -/
theorem Separate.descending {length : Nat} {reps : List Edit} (separate : Separate length reps) :
    Descending length (reps.insertionSort fun a b => b.start ≤ a.start) := by
  have total : Std.Total fun a b : Edit => b.start ≤ a.start := ⟨fun a b => Nat.le_total _ _⟩
  have trans : IsTrans Edit fun a b => b.start ≤ a.start :=
    ⟨fun _ _ _ h h' => Nat.le_trans h' h⟩
  obtain ⟨apart, proper⟩ :=
    separate.perm (List.perm_insertionSort (fun a b => b.start ≤ a.start) reps)
  refine ⟨?_, proper⟩
  have sorted := List.pairwise_insertionSort (fun a b : Edit => b.start ≤ a.start) reps
  refine (sorted.and apart).imp_of_mem fun {a b} ha hb both => ?_
  have bounds := proper a ha
  omega

/-- Edits that are separate in pairs, sorted by their starts, are placed in the text one after the
other: this is the order in which they are read. -/
theorem Separate.placed {text : Text} {reps : List Edit} (separate : Separate text.length reps) :
    Placed text (reps.insertionSort fun a b => a.start ≤ b.start) := by
  have total : Std.Total fun a b : Edit => a.start ≤ b.start := ⟨fun a b => Nat.le_total _ _⟩
  have trans : IsTrans Edit fun a b => a.start ≤ b.start :=
    ⟨fun _ _ _ h h' => Nat.le_trans h h'⟩
  obtain ⟨apart, proper⟩ :=
    separate.perm (List.perm_insertionSort (fun a b => a.start ≤ b.start) reps)
  have sorted := List.pairwise_insertionSort (fun a b : Edit => a.start ≤ b.start) reps
  refine ⟨Edit.ordered_of_pairwise (fun r member => ?_) ?_ (Nat.zero_le _),
    fun r member => (proper r member).1⟩
  · have bounds := proper r member
    omega
  · refine (sorted.and apart).imp_of_mem fun {a b} ha hb both => ?_
    have bounds := proper b hb
    omega

/-- Only one list of disjoint replacements is in the order of the right-to-left pass. -/
theorem Descending.eq_of_perm {length : Nat} {reps reps' : List Edit}
    (descending : Descending length reps) (descending' : Descending length reps')
    (perm : reps.Perm reps') : reps = reps' := by
  refine perm.eq_of_pairwise (fun a b ha hb before after => ?_) descending.apart descending'.apart
  have bounds := descending.proper a ha
  have bounds' := descending'.proper b hb
  omega

/-- The order of the list does not matter to the plain replacement. -/
theorem applyReplacements_of_perm {text : Text} {reps reps' : List Edit}
    (separate : Separate text.length reps) (perm : reps'.Perm reps) :
    applyReplacements text reps' = applyReplacements text reps := by
  have same := (separate.perm perm).descending.eq_of_perm separate.descending
    ((List.perm_insertionSort _ reps').trans
      (perm.trans (List.perm_insertionSort _ reps).symm))
  rw [applyReplacements, applyReplacements, same]

/-- The joined nodes are the joined text with its stretches replaced, which are the gaps and the new
texts by turns. The number of the nodes stays, and so does each node that no replacement reaches
into. The replacements are of stretches that are not empty and do not overlap; they may come in any
order. -/
theorem applyToNodes_eq (texts : List Text) (reps : List Edit)
    (separate : Separate texts.flatten.length reps) :
    (applyToNodes texts reps).flatten = applyReplacements texts.flatten reps ∧
    applyReplacements texts.flatten reps =
      Edit.patch texts.flatten 0 (reps.insertionSort fun a b => a.start ≤ b.start) ∧
    (applyToNodes texts reps).length = texts.length ∧
    ∀ front node back, texts = front ++ node :: back →
      (∀ r ∈ reps, ¬Meets r front.flatten.length (front.flatten.length + node.length)) →
      (applyToNodes texts reps)[front.length]? = some node := by
  have descending := separate.descending
  refine ⟨flatten_foldl_putInNodes descending, ?_, length_foldl_putInNodes texts _, ?_⟩
  · rw [← applyReplacements_eq separate.placed]
    exact (applyReplacements_of_perm separate (List.perm_insertionSort _ reps)).symm
  · rintro front node back rfl missed
    have missed' : ∀ r ∈ reps.insertionSort fun a b => b.start ≤ a.start,
        ¬Meets r front.flatten.length (front.flatten.length + node.length) :=
      fun r member => missed r ((List.mem_insertionSort _).mp member)
    obtain ⟨front', back', eq, len⟩ := foldl_putInNodes_missed descending missed' back
    rw [applyToNodes, eq, ← len, List.getElem?_append_right (Nat.le_refl _), Nat.sub_self]
    rfl

/-- A name over three runs, one of which is empty, and a number behind it. -/
theorem applyToNodes_name :
    (applyToNodes ["Iv".toList, [], "an p".toList, "aid 5".toList]
        [⟨2, 4, "[P-1]".toList⟩, ⟨10, 11, "[A-1]".toList⟩]).flatten =
      applyReplacements "Ivan paid 5".toList
        [⟨2, 4, "[P-1]".toList⟩, ⟨10, 11, "[A-1]".toList⟩] :=
  (applyToNodes_eq ["Iv".toList, [], "an p".toList, "aid 5".toList]
    [⟨2, 4, "[P-1]".toList⟩, ⟨10, 11, "[A-1]".toList⟩] ⟨by decide, by decide⟩).1

end RedactGate.Desktop
