import RedactGate.Schemas.Entities
import RedactGate.Library.Matching

/-!
# Detection scoring

How many of the labelled spans of a golden set are found: a detected span of the same type
that overlaps counts for one labelled span at most.
-/
namespace RedactGate

open Library

/-- A labelled span of a golden set: a type, and the offsets between which it lies. -/
structure LabeledSpan where
  entityType : Text
  start : Int
  stop : Int

/-- `_spans_overlap`. -/
def spansOverlap (aStart aStop bStart bStop : Int) : Bool :=
  decide (aStart < bStop) && decide (bStart < aStop)

variable {Score : Type}

/-- A detected span counts for a labelled one. -/
def counts (lab : LabeledSpan) (det : EntitySpan Score) : Bool :=
  decide (det.entityType = lab.entityType) &&
    spansOverlap lab.start lab.stop det.start det.stop

/-- The body of the loop over the labelled spans, with the indexes in use and the count. -/
def scoreStep (detected : List (EntitySpan Score)) (acc : List Nat × Nat) (lab : LabeledSpan) :
    List Nat × Nat :=
  match freeFit counts detected acc.1 lab with
  | some i => (i :: acc.1, acc.2 + 1)
  | none => acc

/-- `_score_detection`: the true positives, and the lengths of the lists. -/
def scoreDetection (labeled : List LabeledSpan) (detected : List (EntitySpan Score)) :
    Nat × Nat × Nat :=
  ((labeled.foldl (scoreStep detected) ([], 0)).2, labeled.length, detected.length)

/-- The count that the loop keeps is the number of the detected spans in use, and these are those
that the first fit takes. -/
theorem foldl_scoreStep (labeled : List LabeledSpan) (detected : List (EntitySpan Score))
    (used : List Nat) : labeled.foldl (scoreStep detected) (used, used.length) =
      (firstFit counts detected used labeled, (firstFit counts detected used labeled).length) := by
  induction labeled generalizing used with
  | nil => rfl
  | cons lab labeled ih =>
    have step : scoreStep detected (used, used.length) lab =
        (fitStep counts detected used lab, (fitStep counts detected used lab).length) := by
      rw [scoreStep, fitStep]
      cases freeFit counts detected used lab with
      | some i => rfl
      | none => rfl
    rw [List.foldl_cons, step, ih]
    rfl

end RedactGate
