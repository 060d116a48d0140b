import RedactGate.Library.Edits
import Mathlib.Data.List.Sort

/-!
# Replacements

What the desktop engine and the file formats exchange: a stretch of a text unit, its new
text, and the label it belongs to.
-/
namespace RedactGate.Desktop

open Library

structure Replacement extends Edit where
  category : Text
  n : Nat
  original : Text
  deriving DecidableEq

/-- `apply_replacements`: from right to left, in the order of the list where two start at
one place. -/
def applyReplacements (text : Text) (reps : List Edit) : Text :=
  (reps.insertionSort fun a b => b.start ≤ a.start).foldl (fun out r => r.splice out) text

/-- Edits in reading order, none of which replaces an empty stretch. -/
structure Placed (text : Text) (reps : List Edit) : Prop where
  ordered : Edit.Ordered text 0 reps
  proper : ∀ r ∈ reps, r.start < r.stop

/-- Replacements of which no two start at one place are spliced in from the last to the first, as
`apply_replacements` sorts them, and the offsets of the others remain valid. -/
theorem applyReplacements_of_starts {text : Text} {reps : List Edit}
    (ordered : Edit.Ordered text 0 reps) (starts : reps.Pairwise fun a b => a.start < b.start) :
    applyReplacements text reps = Edit.patch text 0 reps := by
  have total : Std.Total fun a b : Edit => b.start ≤ a.start := ⟨fun a b => Nat.le_total _ _⟩
  have trans : IsTrans Edit fun a b => b.start ≤ a.start :=
    ⟨fun _ _ _ h h' => Nat.le_trans h' h⟩
  have sorted := List.pairwise_insertionSort (fun a b : Edit => b.start ≤ a.start) reps
  have perm : (reps.insertionSort fun a b => b.start ≤ a.start).Perm reps.reverse :=
    (List.perm_insertionSort _ reps).trans (List.reverse_perm reps).symm
  have backward : reps.reverse.Pairwise fun a b => b.start < a.start :=
    List.pairwise_reverse.mpr starts
  have same : (reps.insertionSort fun a b => b.start ≤ a.start) = reps.reverse := by
    -- the starts of the reversed list go down strictly, so it is the only sorted one
    have apart : (reps.insertionSort fun a b => b.start ≤ a.start).Pairwise
        fun a b => a.start ≠ b.start :=
      (perm.pairwise_iff fun {a b} h => h.symm).mpr (backward.imp Nat.ne_of_gt)
    refine perm.eq_of_pairwise (fun a b _ _ before after => ?_)
      (sorted.and apart |>.imp fun h => Nat.lt_of_le_of_ne h.1 h.2.symm) backward
    omega
  rw [applyReplacements, same, List.foldl_reverse, Edit.foldr_splice ordered, List.take_zero,
    List.nil_append]

/-- Replacements in reading order are spliced in from the last to the first. -/
theorem applyReplacements_eq {text : Text} {reps : List Edit} (placed : Placed text reps) :
    applyReplacements text reps = Edit.patch text 0 reps := by
  refine applyReplacements_of_starts placed.ordered ?_
  refine placed.ordered.pairwise.imp_of_mem fun {a b} ha _ apart => ?_
  exact Nat.lt_of_lt_of_le (placed.proper a ha) apart

/-- Replacements that are in their places are in order already. -/
theorem insertionSort_of_placed {text : Text} {reps : List Replacement}
    (placed : Placed text (reps.map Replacement.toEdit)) :
    reps.insertionSort (fun a b => a.start ≤ b.start) = reps := by
  refine List.Pairwise.insertionSort_eq ?_
  refine (List.pairwise_map.mp placed.ordered.pairwise).imp_of_mem fun {a b} ha _ apart => ?_
  have proper := placed.proper a.toEdit (List.mem_map_of_mem ha)
  omega

end RedactGate.Desktop
