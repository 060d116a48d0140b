import RedactGate.Library.Text
import Mathlib.Data.Prod.Lex

/-!
# Shared detection and policy data shapes

The contract between detection, vault, policy and audit.
-/
namespace RedactGate

open Library

/-- `DetectionSource`, which names the detector that a span is from; a name outside the literal type
falls under `other`. -/
inductive DetectionSource where
  | regex
  | presidio
  | llm
  | manual
  | other (name : Text)
  deriving DecidableEq, Repr

/-- A detected sensitive entity within a single text. Offsets follow slice
semantics, so the covered text is `text[start:stop]`. Scores are only ever
compared, hence any linear order serves (the code uses floats). -/
structure EntitySpan (Score : Type) where
  start : Nat
  stop : Nat
  entityType : Text
  text : Text
  score : Score
  source : DetectionSource
  jurisdiction : Option Text
  deriving DecidableEq, Repr

namespace EntitySpan

variable {Score : Type}

def length (s : EntitySpan Score) : Int := (s.stop : Int) - s.start

def overlaps (s other : EntitySpan Score) : Bool :=
  decide (s.start < other.stop) && decide (other.start < s.stop)

/-- `start < end`: the span covers at least one character. -/
def Proper (s : EntitySpan Score) : Prop := s.start < s.stop

end EntitySpan

structure DetectionResult (Score : Type) where
  text : Text
  spans : List (EntitySpan Score)

inductive PolicyMode where
  | tokenize
  | mask
  | hardBlock
  deriving DecidableEq, Repr

/-- The outcome of evaluating a policy: what is redacted, what blocks, and which providers may be
called; `redactTypes = none` redacts everything detected. -/
structure PolicyDecision where
  mode : PolicyMode
  blocked : Bool
  blockedTypes : List Text
  allowedProviders : List Text
  redactTypes : Option (List Text)

def PolicyDecision.shouldRedact (decision : PolicyDecision) (entityType : Text) : Bool :=
  match decision.redactTypes with
  | none => true
  | some types => types.contains entityType

end RedactGate
