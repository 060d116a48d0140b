import RedactGate.Redaction.Merge

/-!
# Detection orchestration

The passes over one text run side by side; what they report is concatenated in a fixed
order and merged. A pass that fails contributes nothing.
-/
namespace RedactGate

open Library

variable {Score : Type} [LinearOrder Score]

/-- What the enabled passes report for a text, in their order; `none` is a failure. -/
abbrev PassResults (Score : Type) := List (Option (List (EntitySpan Score)))

/-- The spans of all passes. -/
def reported (results : PassResults Score) : List (EntitySpan Score) :=
  results.flatMap fun res => res.getD []

/-- `Detector.detect`, given what the passes report for the text. -/
def Detector.detect (text : Text) (results : PassResults Score) : DetectionResult Score :=
  if text.isEmpty then ⟨text, []⟩ else ⟨text, mergeSpans (reported results)⟩

end RedactGate
