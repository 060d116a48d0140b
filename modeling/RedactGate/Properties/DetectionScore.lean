import RedactGate.Eval.Harness
import Mathlib.Order.Basic

/-!
# Detection scoring counts a maximum matching

Both lists are in the order of a text, so that the spans that count for one another never
cross: the first free span for each label is a best choice.
-/
namespace RedactGate

open Library

variable {Score : Type}

/-- Labelled spans by their starts, none of which is empty and no two of which overlap. -/
structure LabelsInOrder (labeled : List LabeledSpan) : Prop where
  sorted : labeled.Pairwise fun a b => a.start ≤ b.start
  apart : labeled.Pairwise fun a b => spansOverlap a.start a.stop b.start b.stop = false
  proper : ∀ lab ∈ labeled, lab.start < lab.stop

/-- Detected spans that are sorted by their starts and proper, and of which no two overlap. -/
structure SpansInOrder (detected : List (EntitySpan Score)) : Prop where
  sorted : detected.Pairwise fun a b => a.start ≤ b.start
  apart : detected.Pairwise fun a b => a.overlaps b = false
  proper : ∀ det ∈ detected, det.Proper

/-- One labelled span ends before the next one starts. -/
theorem LabelsInOrder.separated {labeled : List LabeledSpan} (inOrder : LabelsInOrder labeled) :
    labeled.Pairwise fun a b => a.stop ≤ b.start := by
  refine (inOrder.sorted.and inOrder.apart).imp_of_mem fun {a b} _ hb both => ?_
  have proper := inOrder.proper b hb
  obtain ⟨sorted, apart⟩ := both
  simp only [spansOverlap, Bool.and_eq_false_iff, decide_eq_false_iff_not] at apart
  omega

theorem SpansInOrder.separated {detected : List (EntitySpan Score)}
    (inOrder : SpansInOrder detected) : detected.Pairwise fun a b => a.stop ≤ b.start := by
  refine (inOrder.sorted.and inOrder.apart).imp_of_mem fun {a b} _ hb both => ?_
  have proper : b.start < b.stop := inOrder.proper b hb
  obtain ⟨sorted, apart⟩ := both
  simp only [EntitySpan.overlaps, Bool.and_eq_false_iff, decide_eq_false_iff_not] at apart
  omega

/-- Labels in order and spans in order that count for one another do not cross, since counting takes
an overlap. -/
theorem nonCrossing_counts {labeled : List LabeledSpan} {detected : List (EntitySpan Score)}
    (labels : LabelsInOrder labeled) (spans : SpansInOrder detected) :
    NonCrossing counts labeled detected := by
  refine labels.separated.imp fun {a a'} before => spans.separated.imp fun {b b'} before' => ?_
  intro late
  simp only [counts, spansOverlap, Bool.and_eq_true, decide_eq_true_eq] at late
  simp only [counts, spansOverlap, Bool.and_eq_false_iff, decide_eq_false_iff_not]
  -- the first label reaches behind the second detection, so the second label lies behind the first
  right
  omega

/-- The true positives of the greedy count are as many as a matching of labels and detections can
have, where both come in the order of their starts, none is empty and no two of a kind overlap. -/
theorem scoreDetection_isGreatest (labeled : List LabeledSpan) (detected : List (EntitySpan Score))
    (labels : LabelsInOrder labeled) (spans : SpansInOrder detected) :
    IsGreatest {n | ∃ pairs, Matching counts labeled detected pairs ∧ pairs.length = n}
      (scoreDetection labeled detected).1 := by
  have count : (scoreDetection labeled detected).1 =
      (firstFit counts detected [] labeled).length :=
    congrArg Prod.snd (foldl_scoreStep labeled detected [])
  rw [count]
  exact isGreatest_firstFit (nonCrossing_counts labels spans)

/-! ## One detection over two labels -/

def nameLabels : List LabeledSpan := [⟨"PERSON".toList, 0, 4⟩, ⟨"PERSON".toList, 5, 9⟩]

/-- The first detection reaches into the second label, which the second detection lies in. -/
def nameSpans : List (EntitySpan Nat) :=
  [⟨0, 6, "PERSON".toList, "Anna P".toList, 1, .regex, none⟩,
    ⟨6, 9, "PERSON".toList, "eter".toList, 1, .regex, none⟩]

theorem scoreDetection_nameSpans :
    IsGreatest {n | ∃ pairs, Matching counts nameLabels nameSpans pairs ∧ pairs.length = n} 2 := by
  have labels : LabelsInOrder nameLabels := ⟨by decide, by decide, by decide⟩
  have spans : SpansInOrder nameSpans :=
    ⟨by decide, by decide, by simp [nameSpans, EntitySpan.Proper]⟩
  exact scoreDetection_isGreatest nameLabels nameSpans labels spans

end RedactGate
